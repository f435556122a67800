import ServiceReach.Proofs.Index.Agreement
import ServiceReach.Proofs.Index.Build
import ServiceReach.Proofs.Index.Files

/-
  The order of files does not matter. Two catalogs agree if they hold the same declarations in some
  order, no name twice, and name all anonymous classes alike. Agreeing catalogs link and lower each
  declaration in the same way, so they have the same types and look the same names up. The catalogs
  of separate files in two orders agree: each of them is made up of what the files declare by
  themselves, and an anonymous class is found by the path of its file.
-/

namespace ServiceReach.Index

open Source

/-! ## Linking -/

namespace Declaration

variable {s r : Scopes} (h : s.Agree r) (d : Declaration)

include h

theorem resolveNode_congr (t : Option Tree) : d.resolveNode s t = d.resolveNode r t := by
  rw [resolveNode, resolveNode, resolve, resolve, Scopes.resolve_congr h]

theorem typeList_congr (clause : Option Tree) : d.typeList s clause = d.typeList r clause := by
  simp only [typeList, resolveNode_congr h]

theorem fieldsOf_congr (member : Tree) : d.fieldsOf s member = d.fieldsOf r member := by
  unfold fieldsOf
  rw [resolveNode_congr h]

theorem allFields_congr : d.allFields s = d.allFields r := by
  have hfields : d.fieldsOf s = d.fieldsOf r := funext (fieldsOf_congr h d)
  rw [allFields, allFields, hfields]

theorem declaredMethods_congr : d.declaredMethods s = d.declaredMethods r := by
  have hparameter : d.parameter? s = d.parameter? r := by
    funext t
    simp only [parameter?, resolveNode_congr h]
  have hmethod : d.method s = d.method r := by
    funext node
    simp only [method, hparameter, resolveNode_congr h]
  simp only [declaredMethods, hmethod]

theorem head_congr {c c' : Catalog} (hfind : c.find? = c'.find?) :
    d.head c s = d.head c' r := by
  simp only [head, superclass, typeList_congr h, resolveNode_congr h, hfind]

theorem link_congr {c c' : Catalog} (hfind : c.find? = c'.find?) :
    d.link c s = d.link c' r := by
  simp only [link, head_congr h d hfind, allFields_congr h, declaredMethods_congr h]

end Declaration

/-! ## Agreeing catalogs -/

namespace Catalog

/-- The same declarations in some order, no name twice, the same anonymous classes, and the same
    room for typing. -/
structure Agree (c c' : Catalog) : Prop where
  declarations : c.declarations.Perm c'.declarations
  nodup : c.names.Nodup
  anonymous : ∀ path start,
    c.anonymous.lookup (path, start) = c'.anonymous.lookup (path, start)
  room : c.room = c'.room

namespace Agree

variable {c c' : Catalog} (h : c.Agree c')

include h

theorem nodup_right : c'.names.Nodup :=
  (h.declarations.map Declaration.name).nodup_iff.mp h.nodup

theorem scopes : c.scopes.Agree c'.scopes := by
  refine Scopes.agree_of_perm (h.declarations.map _) ?_
  rw [Catalog.scopes, List.map_map]
  exact h.nodup

theorem link_eq (d : Declaration) : d.link c c.scopes = d.link c' c'.scopes :=
  d.link_congr h.scopes (funext (find?_name_of_perm h.nodup h.declarations))

theorem link_perm : c.link.Perm c'.link := by
  simp only [link, h.link_eq]
  exact h.declarations.map _

theorem heads_perm : c.heads.types.Perm c'.heads.types := by
  rw [types_heads h.nodup, types_heads h.nodup_right]
  exact h.link_perm.map LinkedType.type

theorem place {p q : Program} (hp : p.types.Perm q.types) (d : Declaration) (m : Method) :
    (c.place p d m).Agree (c'.place q d m) :=
  ⟨h.scopes, h.anonymous _, hp, rfl, rfl, rfl, h.room⟩

theorem lowerMethod_eq {p q : Program} (hp : p.types.Perm q.types) (d : Declaration)
    (m : LinkedMethod) : c.lowerMethod p d m = c'.lowerMethod q d m := by
  simp only [lowerMethod, Place.lower_congr (h.place hp d m.method)]

theorem lowerType_eq (t : LinkedType) : c.lowerType c.heads t = c'.lowerType c'.heads t := by
  have hmethod : c.lowerMethod c.heads t.declaration = c'.lowerMethod c'.heads t.declaration :=
    funext (h.lowerMethod_eq h.heads_perm t.declaration)
  rw [lowerType, lowerType, hmethod]

theorem lowered_eq : c.lowered = c'.lowered :=
  funext fun t => by rw [lowered, lowered, h.lowerType_eq]

theorem types_perm : c.build.program.types.Perm c'.build.program.types := by
  rw [types_build h.nodup, types_build h.nodup_right, h.lowered_eq]
  exact h.link_perm.map c'.lowered

theorem names_perm : c.build.names.Perm c'.build.names := by
  simp only [names_build, h.lowerType_eq]
  exact h.link_perm.flatMap_right _

end Agree
end Catalog

/-! ## Files in another order -/

theorem Separate.agree {room : Nat} {files files' : List File} (h : Separate files)
    (hperm : files.Perm files') :
    (Indexer.ofFiles room files).catalog.Agree (Indexer.ofFiles room files').catalog := by
  have h' := h.perm hperm
  obtain ⟨hdecl, hanon⟩ := h.catalog_ofFiles
  obtain ⟨hdecl', hanon'⟩ := h'.catalog_ofFiles
  refine ⟨?_, Indexer.nodup_names_ofFiles room files, fun path start => ?_,
    (Indexer.room_ofFiles room files).trans (Indexer.room_ofFiles room files').symm⟩
  · rw [hdecl, hdecl']
    exact hperm.flatMap_right _
  · have hreverse : files.reverse.Perm files'.reverse :=
      (files.reverse_perm.trans hperm).trans files'.reverse_perm.symm
    have hnodup : (files.reverse.map (·.entry.path)).Nodup :=
      (files.reverse_perm.map _).nodup_iff.mpr h.nodup_entry_paths
    have hnodup' := (hreverse.map (·.entry.path)).nodup_iff.mp hnodup
    rw [hanon, hanon', lookup_flatMap_anonymous hnodup, lookup_flatMap_anonymous hnodup',
      find?_name_of_perm hnodup hreverse]

theorem mem_phantoms_session {b : Build} {name : String} :
    name ∈ b.session.phantoms ↔ name ∈ b.names := by
  have hfold : ∀ (names known : List String),
      name ∈ names.foldl Session.addName known ↔ name ∈ known ∨ name ∈ names := by
    intro names
    induction names with
    | nil => simp
    | cons n names ih =>
      intro known
      rw [List.foldl_cons, ih, Session.addName]
      split
      · have hn : n ∈ known := by simpa using ‹known.contains n = true›
        grind
      · grind
  unfold Build.session Session.remember Session.ofProgram
  rw [hfold]
  simp

/-- Two builds have the same types, each of them in full, and looked up the same names that
    nobody declares. -/
structure Build.Same (b b' : Build) : Prop where
  types : b.program.types.Perm b'.program.types
  find : ∀ name, b.program.find? name = b'.program.find? name
  phantoms : ∀ name, name ∈ b.session.phantoms ↔ name ∈ b'.session.phantoms

/-- Separate files give the same program in whichever order they are added. -/
theorem Indexer.build_same_of_perm {room : Nat} {files files' : List File} (h : Separate files)
    (hperm : files.Perm files') :
    (ofFiles room files).build.1.Same (ofFiles room files').build.1 := by
  have hagree : (ofFiles room files).catalog.Agree (ofFiles room files').catalog := h.agree hperm
  rw [build_ofFiles, build_ofFiles]
  refine ⟨hagree.types_perm, Program.find?_of_perm hagree.types_perm, fun name => ?_⟩
  rw [mem_phantoms_session, mem_phantoms_session]
  exact hagree.names_perm.mem_iff

/-! ## Two files -/

/-- `class Low extends High {}` -/
def lowFile : File where
  path := some "Low.java"
  text := "class Low extends High {}".toUTF8.data
  tree := .node ⟨.other "program", true, 0, 0, 25, none⟩
    [.node ⟨.classDeclaration, true, 1, 0, 25, none⟩
      [.node ⟨.identifier, true, 2, 6, 9, some .name⟩ [],
       .node ⟨.superclass, true, 3, 10, 22, none⟩
        [.node ⟨.other "type_identifier", true, 4, 18, 22, none⟩ []],
       .node ⟨.classBody, true, 5, 23, 25, some .body⟩ []]]

/-- `class High { Object o = new Object() {}; }` -/
def highFile : File where
  path := some "High.java"
  text := "class High { Object o = new Object() {}; }".toUTF8.data
  tree := .node ⟨.other "program", true, 0, 0, 42, none⟩
    [.node ⟨.classDeclaration, true, 1, 0, 42, none⟩
      [.node ⟨.identifier, true, 2, 6, 10, some .name⟩ [],
       .node ⟨.classBody, true, 3, 11, 42, some .body⟩
        [.node ⟨.fieldDeclaration, true, 4, 13, 40, none⟩
          [.node ⟨.other "type_identifier", true, 5, 13, 19, some .type⟩ [],
           .node ⟨.variableDeclarator, true, 6, 20, 39, some .declarator⟩
            [.node ⟨.identifier, true, 7, 20, 21, some .name⟩ [],
             .node ⟨.objectCreationExpression, true, 8, 24, 39, some .value⟩
              [.node ⟨.other "type_identifier", true, 9, 28, 34, some .type⟩ [],
               .node ⟨.classBody, true, 10, 37, 39, none⟩ []]]]]]]

theorem separate_low_high : Separate [lowFile, highFile] where
  present := by decide
  paths := by decide
  names := by
    have hlow : lowFile.declaredNames = ["Low"] := by decide +kernel
    have hhigh : highFile.declaredNames = ["High", "High$1"] := by decide +kernel
    simp [hlow, hhigh]

/-- A class is linked to its superclass whether the superclass comes in a later file or before. -/
theorem Indexer.build_same_low_high :
    Separate [lowFile, highFile] ∧ [lowFile, highFile].Perm [highFile, lowFile] ∧
      (ofFiles 100 [lowFile, highFile]).build.1.Same (ofFiles 100 [highFile, lowFile]).build.1 :=
  ⟨separate_low_high, .swap _ _ _, build_same_of_perm separate_low_high (.swap _ _ _)⟩

end ServiceReach.Index

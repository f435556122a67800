import ServiceReach.Proofs.Index.Files

/-
  Types around types. The type around a declared type is declared, and the name of the inner one
  extends the name of the outer one (`Catalog.Enclosed`). Hence all the types around a body are
  declared, each of them but the outermost has a compound name, and the names of all types of a
  file hold its package (`Catalog.Packaged`).
-/

namespace ServiceReach.Index

open Source

/-- The name of the declaration extends that of the type around it, which is declared. -/
def Catalog.Nests (c : Catalog) (d : Declaration) : Prop :=
  ∀ o, present? d.enclosing = some o → o ∈ c.names ∧ ∃ simple, d.name = o ++ "$" ++ simple

/-- Types stand around types and anonymous classes as the catalog declares them. -/
structure Catalog.Enclosed (c : Catalog) : Prop where
  nests : ∀ d ∈ c.declarations, c.Nests d
  anonymous : ∀ x ∈ c.anonymous, x.2 ∈ c.names

/-! ## Scans -/

namespace Scan

variable {s : Scan} {d : Declaration} {e : Entry} {owner : Option String}

theorem register_nests (h : ∀ d ∈ s.catalog.declarations, s.catalog.Nests d)
    (hd : s.catalog.Nests d) :
    ∀ d' ∈ (s.register d).catalog.declarations, (s.register d).catalog.Nests d' := by
  by_cases hmem : d.name ∈ s.catalog.names
  · rw [register_of_mem hmem]
    exact h
  · have hmono : ∀ d', s.catalog.Nests d' → (s.register d).catalog.Nests d' := by
      intro d' hd' o ho
      obtain ⟨hdeclared, hname⟩ := hd' o ho
      exact ⟨Catalog.Grown.names_mono (register_grown rfl) hdeclared, hname⟩
    intro d' hd'
    rw [register_of_not_mem hmem] at hd'
    rcases List.mem_append.mp hd' with hd' | hd'
    · exact hmono d' (h d' hd')
    · rw [List.mem_singleton.mp hd']
      exact hmono d hd

theorem register_enclosed (h : s.catalog.Enclosed) (hd : s.catalog.Nests d) :
    (s.register d).catalog.Enclosed := by
  refine ⟨register_nests h.nests hd, fun x hx => ?_⟩
  rw [anonymous_register] at hx
  exact Catalog.Grown.names_mono (register_grown rfl) (h.anonymous x hx)

theorem registerAnonymous_enclosed (h : s.catalog.Enclosed) {o : String}
    (ho : o ∈ s.catalog.names) (node : Tree) :
    (s.registerAnonymous e o node).2.catalog.Enclosed := by
  have hgrown := registerAnonymous_grown (e := e) ho node
  constructor
  · have hnests : (s.numbered e o node).catalog.Nests
        ⟨s.anonymousName o, node, e, .anonymous, some o⟩ := by
      intro o' ho'
      obtain rfl : o = o' := Option.some.inj (Option.filter_eq_some_iff.mp ho').1
      exact ⟨ho, _, rfl⟩
    rw [registerAnonymous_eq]
    exact register_nests h.nests hnests
  · intro x hx
    rw [anonymous_registerAnonymous] at hx
    rcases List.mem_cons.mp hx with rfl | hx
    · exact mem_names_registerAnonymous
    · exact Catalog.Grown.names_mono hgrown (h.anonymous x hx)

theorem enter_enclosed (h : s.catalog.Enclosed) (howner : s.catalog.Knows owner) (node : Tree) :
    (s.enter e owner node).2.catalog.Enclosed := by
  rcases enter_cases e owner node with henter | ⟨d, hdecl, henter⟩ | ⟨o, body, ho, henter⟩ <;>
    rw [henter]
  · exact h
  · obtain ⟨_, henclosing, simple, hname⟩ := hdecl
    refine register_enclosed h fun o ho => ?_
    rw [henclosing] at ho
    refine ⟨howner o ho, simple, ?_⟩
    rw [hname, memberName, ho]
  · exact registerAnonymous_enclosed h (howner o ho) node

end Scan

mutual

theorem scanTree_enclosed (e : Entry) (owner : Option String) :
    (t : Tree) → (s : Scan) → s.catalog.Knows owner → s.catalog.Enclosed →
      (scanTree e owner t s).catalog.Enclosed
  | .node label children, s, howner, h => by
    obtain ⟨_, hknows⟩ := Scan.enter_grown (e := e) howner (.node label children)
    rw [scanTree]
    exact scanTrees_enclosed e _ children _ hknows (Scan.enter_enclosed h howner _)

theorem scanTrees_enclosed (e : Entry) (owners : Nat → Option String) :
    (ts : List Tree) → (s : Scan) → (∀ id, s.catalog.Knows (owners id)) → s.catalog.Enclosed →
      (scanTrees e owners ts s).catalog.Enclosed
  | [], _, _, h => h
  | t :: rest, s, howners, h => by
    have hgrown := scanTree_grown e (owners t.id) t s (howners t.id)
    rw [scanTrees]
    exact scanTrees_enclosed e owners rest _
      (fun id => Catalog.Grown.knows_mono hgrown (howners id))
      (scanTree_enclosed e (owners t.id) t s (howners t.id) h)

end

theorem Indexer.enclosed_ofFiles (room : Nat) (files : List File) :
    (ofFiles room files).catalog.Enclosed := by
  induction files using List.reverseRecOn with
  | nil => exact ⟨fun d hd => absurd hd List.not_mem_nil, fun x hx => absurd hx List.not_mem_nil⟩
  | append_singleton files f ih =>
    rw [ofFiles_concat]
    exact scanTree_enclosed _ none f.tree _ (Catalog.knows_none _) ⟨ih.nests, ih.anonymous⟩

/-! ## The package in the names -/

/-- The name of each declared type holds the package of its file. -/
def Catalog.Packaged (c : Catalog) : Prop :=
  ∀ d ∈ c.declarations, d.entry.header.package.toList ⊆ d.name.toList

/-- The name of the type around, if there is one, holds the package of the file. -/
def Entry.Holds (e : Entry) (owner : Option String) : Prop :=
  ∀ o, owner = some o → e.header.package.toList ⊆ o.toList

namespace Entry.Holds

variable {e : Entry} {owner : Option String}

theorem some_iff {o : String} : e.Holds (some o) ↔ e.header.package.toList ⊆ o.toList :=
  ⟨fun h => h o rfl, fun h _ ho => Option.some.inj ho ▸ h⟩

theorem nested {o : String} (h : e.Holds (some o)) (simple : String) :
    e.Holds (some (o ++ "$" ++ simple)) := by
  rw [some_iff] at h ⊢
  rw [String.toList_append, String.toList_append, List.append_assoc]
  exact List.subset_append_of_subset_left _ h

theorem memberName (h : e.Holds owner) (simple : String) :
    e.Holds (some (Scan.memberName e owner simple)) := by
  unfold Scan.memberName
  split
  · rename_i o ho
    have howner : owner = some o := (Option.filter_eq_some_iff.mp ho).1
    exact (howner ▸ h).nested simple
  · rw [some_iff, inPackage]
    split
    · rename_i hempty
      rw [String.isEmpty_iff.mp hempty]
      exact List.nil_subset _
    · rw [String.toList_append, String.toList_append, List.append_assoc]
      exact List.subset_append_left _ _

end Entry.Holds

namespace Scan

variable {s : Scan} {d : Declaration} {e : Entry} {owner : Option String}

theorem register_packaged (h : s.catalog.Packaged) (hd : d.entry.Holds (some d.name)) :
    (s.register d).catalog.Packaged := by
  intro d' hd'
  rcases mem_declarations_register hd' with hold | rfl
  · exact h d' hold
  · exact Entry.Holds.some_iff.mp hd

theorem enter_packaged (h : s.catalog.Packaged) (howner : e.Holds owner) (node : Tree) :
    (s.enter e owner node).2.catalog.Packaged ∧ ∀ id, e.Holds ((s.enter e owner node).1 id) := by
  rcases enter_cases e owner node with henter | ⟨d, hdecl, henter⟩ | ⟨o, body, ho, henter⟩ <;>
    rw [henter]
  · exact ⟨h, fun _ => howner⟩
  · obtain ⟨rfl, _, simple, hname⟩ := hdecl
    have hd : d.entry.Holds (some d.name) := hname ▸ howner.memberName simple
    exact ⟨register_packaged h hd, fun _ => hd⟩
  · have ho : e.Holds (some o) := (Option.filter_eq_some_iff.mp ho).1 ▸ howner
    have hname : e.Holds (some (s.anonymousName o)) := ho.nested _
    rw [registerAnonymous_eq]
    refine ⟨register_packaged h hname, fun id => ?_⟩
    dsimp only
    split
    · exact hname
    · exact ho

end Scan

theorem Catalog.add_packaged {c : Catalog} (h : c.Packaged) (f : File) :
    (c.add f).catalog.Packaged := by
  unfold add
  refine scanTree_keeps (P := fun s => s.catalog.Packaged) (Q := (c.entryOf f).Holds)
    (fun s owner node hs howner => Scan.enter_packaged hs howner node) ?_ _ _ h
  exact fun o ho => nomatch ho

theorem Indexer.packaged_ofFiles (room : Nat) (files : List File) :
    (ofFiles room files).catalog.Packaged := by
  induction files using List.reverseRecOn with
  | nil => exact fun d hd => absurd hd List.not_mem_nil
  | append_singleton files f ih =>
    rw [ofFiles_concat]
    exact Catalog.add_packaged ih f

/-- What holds of the catalog of any files: the names of its types are different, extend the names
    of the types around them and hold the package. -/
structure Catalog.Indexed (c : Catalog) : Prop extends Catalog.Enclosed c where
  packaged : c.Packaged
  nodup : c.names.Nodup

theorem Indexer.indexed_ofFiles (room : Nat) (files : List File) :
    (ofFiles room files).catalog.Indexed :=
  ⟨enclosed_ofFiles room files, packaged_ofFiles room files, nodup_names_ofFiles room files⟩

/-! ## The types around a type -/

namespace Catalog.Enclosed

variable {c : Catalog}

theorem enclosing_nests (h : c.Enclosed) {name o : String}
    (ho : present? (c.scopes.enclosing? name) = some o) :
    o ∈ c.names ∧ ∃ simple, name = o ++ "$" ++ simple := by
  have henclosing := (Option.filter_eq_some_iff.mp ho).1
  obtain ⟨x, hx, hsecond⟩ := Option.bind_eq_some_iff.mp henclosing
  obtain ⟨d, hd, rfl⟩ := List.mem_map.mp (List.mem_of_find?_eq_some hx)
  have hname : d.name = name := by simpa using List.find?_some hx
  have heq : c.scopes.enclosing? name = d.enclosing := henclosing.trans hsecond.symm
  exact hname ▸ h.nests d hd o (heq ▸ ho)

theorem mem_aroundFrom (h : c.Enclosed) (fuel : Nat) {scope : Option String}
    (hscope : c.Knows scope) : ∀ n ∈ c.scopes.aroundFrom fuel scope, n ∈ c.names := by
  induction fuel generalizing scope with
  | zero => exact fun n hn => absurd hn List.not_mem_nil
  | succ fuel ih =>
    rw [Scopes.aroundFrom]
    cases hname : present? scope with
    | none => exact fun n hn => absurd hn List.not_mem_nil
    | some name =>
      refine List.forall_mem_cons.mpr ⟨hscope name hname, ih ?_⟩
      exact fun o ho => (h.enclosing_nests ho).1

/-- The types around a declared type are declared. -/
theorem mem_around (h : c.Enclosed) {n name : String} (hname : name ∈ c.names)
    (hn : n ∈ c.scopes.around (some name)) : n ∈ c.names :=
  h.mem_aroundFrom _ (Scan.knows_some hname) n hn

theorem compound_of_aroundFrom (h : c.Enclosed) (fuel : Nat) {scope : Option String} {r : String}
    {before after : List String} (heq : c.scopes.aroundFrom fuel scope = before ++ r :: after) :
    ∀ n ∈ before, ∃ o simple, n = o ++ "$" ++ simple := by
  induction fuel generalizing scope before with
  | zero =>
    have hlength := congrArg List.length heq
    rw [List.length_append, List.length_cons] at hlength
    exact absurd hlength (by simp [Scopes.aroundFrom])
  | succ fuel ih =>
    cases before with
    | nil => exact fun n hn => absurd hn List.not_mem_nil
    | cons b before =>
      rw [Scopes.aroundFrom] at heq
      cases hname : present? scope with
      | none =>
        rw [hname] at heq
        cases heq
      | some name =>
        rw [hname] at heq
        obtain ⟨rfl, hrest⟩ := List.cons.inj heq
        refine List.forall_mem_cons.mpr ⟨?_, ih hrest⟩
        -- Something stands around this type, so its name extends another one.
        have hne : c.scopes.aroundFrom fuel (c.scopes.enclosing? name) ≠ [] := by simp [hrest]
        cases fuel with
        | zero => exact absurd rfl hne
        | succ fuel =>
          cases ho : present? (c.scopes.enclosing? name) with
          | none =>
            rw [Scopes.aroundFrom, ho] at hne
            exact absurd rfl hne
          | some o => exact ⟨o, (h.enclosing_nests ho).2⟩

/-- A type inside another one has a compound name. -/
theorem compound_of_around (h : c.Enclosed) {scope : Option String} {r : String}
    {before after : List String} (heq : c.scopes.around scope = before ++ r :: after) :
    ∀ n ∈ before, ∃ o simple, n = o ++ "$" ++ simple :=
  h.compound_of_aroundFrom _ heq

end Catalog.Enclosed
end ServiceReach.Index

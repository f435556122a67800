import ServiceReach.Proofs.Index.BinaryNames
import ServiceReach.Proofs.Text.Parts

/-
  Dotted names. A dotted name does not say where its package ends and the types begin. If simple
  names hold no dot and no dollar sign, packages no dollar sign, and no package is at or under a
  type, then there is only one way to read the dotted name of a declared type: the first of its
  types is the longest leading part that is declared (`not_declares_take`). So the dotted name leads
  to the binary name of the type, and so does its simple name in a file that imports it, wherever no
  type around has or declares that simple name (`Indexer.dotted_name_resolves`).
-/

namespace ServiceReach.Index

open Source

/-! ## The names of declared types -/

/-- The simple name of a type that is declared by name. -/
def Declaration.simple (d : Declaration) : String :=
  d.entry.textOf? (d.node.field? .name)

/-- The type is declared by name, and no type stands around it. -/
def Declaration.IsTop (d : Declaration) : Prop :=
  d.kind ≠ .anonymous ∧ present? d.enclosing = none

instance (d : Declaration) : Decidable d.IsTop :=
  inferInstanceAs (Decidable (d.kind ≠ .anonymous ∧ present? d.enclosing = none))

/-- The declaration is of an indexed file, and its name is made of the type around it and its
    simple name or, if it is anonymous, a number. -/
structure Catalog.Composed (c : Catalog) (d : Declaration) : Prop where
  entry : d.entry ∈ c.entries
  named : d.kind ≠ .anonymous → d.name = Scan.memberName d.entry d.enclosing d.simple
  anonymous : d.kind = .anonymous → ∃ (o : String) (k : Nat), d.name = o ++ "$" ++ toString k

theorem Catalog.Composed.mono {c c' : Catalog} {d : Declaration} (h : c.Composed d)
    (hentries : c.entries ⊆ c'.entries) : c'.Composed d :=
  ⟨hentries h.entry, h.named, h.anonymous⟩

namespace Scan

variable {s : Scan} {d d' : Declaration} {e : Entry}

theorem entries_register : (s.register d).catalog.entries = s.catalog.entries := by
  by_cases hmem : d.name ∈ s.catalog.names
  · rw [register_of_mem hmem]
  · rw [register_of_not_mem hmem]

/-- A scan of the entry in which all names are composed. -/
structure Composes (e : Entry) (s : Scan) : Prop where
  entry : e ∈ s.catalog.entries
  composed : ∀ d ∈ s.catalog.declarations, s.catalog.Composed d

theorem Composes.register (h : s.Composes e) (hd : s.catalog.Composed d) :
    (s.register d).Composes e := by
  have hentries : s.catalog.entries ⊆ (s.register d).catalog.entries := by
    rw [entries_register]
    exact List.Subset.refl _
  refine ⟨hentries h.entry, fun d' hd' => ?_⟩
  rcases mem_declarations_register hd' with hold | hnew
  · exact (h.composed d' hold).mono hentries
  · exact hnew ▸ hd.mono hentries

theorem Composes.registerAnonymous (h : s.Composes e) (o : String) (node : Tree) :
    (s.registerAnonymous e o node).2.Composes e := by
  have hnumbered : (s.numbered e o node).Composes e :=
    ⟨h.entry, fun d hd => (h.composed d hd).mono (List.Subset.refl _)⟩
  rw [registerAnonymous_eq]
  exact hnumbered.register ⟨h.entry, fun hkind => absurd rfl hkind, fun _ => ⟨_, _, rfl⟩⟩

theorem Composes.enter (h : s.Composes e) (owner : Option String) (node : Tree) :
    (s.enter e owner node).2.Composes e := by
  unfold Scan.enter
  split
  · rename_i kind hkind
    split
    · exact h
    · rename_i name hname
      have hnamed : kind ≠ .anonymous := by
        rintro rfl
        unfold DeclKind.ofNode? at hkind
        split at hkind <;> simp at hkind
      refine h.register ⟨h.entry, fun _ => ?_, fun hanonymous => absurd hanonymous hnamed⟩
      simp [Declaration.simple, hname, Entry.textOf?]
  · split
    · split
      · exact h.registerAnonymous _ node
      · exact h
    · exact h

end Scan

theorem Catalog.composes_add {c : Catalog} (h : ∀ d ∈ c.declarations, c.Composed d) (f : File) :
    (c.add f).Composes (c.entryOf f) := by
  unfold add
  refine scanTree_keeps (P := Scan.Composes (c.entryOf f)) (Q := fun _ => True)
    (fun s owner node hs _ => ⟨hs.enter owner node, fun _ => trivial⟩) trivial _ _ ?_
  exact ⟨List.mem_append_right _ List.mem_cons_self,
    fun d hd => (h d hd).mono (List.subset_append_left _ _)⟩

theorem Indexer.composed_ofFiles (room : Nat) (files : List File) :
    ∀ d ∈ (ofFiles room files).catalog.declarations, (ofFiles room files).catalog.Composed d := by
  induction files using List.reverseRecOn with
  | nil => exact fun d hd => absurd hd List.not_mem_nil
  | append_singleton files f ih =>
    rw [ofFiles_concat]
    exact (Catalog.composes_add ih f).composed

/-! ## Dotted names and packages -/

/-- The name is that of the type, or goes on after it with a dot. -/
def AtOrUnder (type name : String) : Prop :=
  name = type ∨ ∃ more, name = type ++ "." ++ more

theorem atOrUnder_iff {type name : String} :
    AtOrUnder type name ↔ Text.split '.' type <+: Text.split '.' name := by
  constructor
  · rintro (rfl | ⟨more, rfl⟩)
    · exact List.prefix_rfl
    · rw [Text.split_append_dot]
      exact List.prefix_append _ _
  · rintro ⟨rest, hrest⟩
    have hname : name = ".".intercalate (Text.split '.' type ++ rest) := by
      rw [hrest, Text.intercalate_split]
    by_cases hnil : rest = []
    · left
      rw [hname, hnil, List.append_nil, Text.intercalate_split]
    · right
      refine ⟨".".intercalate rest, ?_⟩
      rw [hname, String.intercalate_append_of_ne_nil (Text.split_ne_nil _ _) hnil,
        Text.intercalate_split]

instance (type name : String) : Decidable (AtOrUnder type name) :=
  decidable_of_iff _ atOrUnder_iff.symm

/-- The segments of a package; the empty package has none. -/
def segments (package : String) : List String :=
  if package.isEmpty then [] else Text.split '.' package

theorem segments_eq_split {package : String} (h : segments package ≠ []) :
    segments package = Text.split '.' package := by
  unfold segments at h ⊢
  split
  · rename_i hempty
    rw [if_pos hempty] at h
    exact absurd rfl h
  · rfl

theorem mem_of_mem_segments {package part : String} {c : Char} (hpart : part ∈ segments package)
    (hc : c ∈ part.toList) : c ∈ package.toList ∧ c ≠ '.' := by
  rw [segments_eq_split (List.ne_nil_of_mem hpart)] at hpart
  exact Text.mem_of_mem_split hpart hc

theorem split_inPackage (package name : String) :
    Text.split '.' (inPackage package name) = segments package ++ Text.split '.' name := by
  unfold inPackage segments
  split
  · rfl
  · exact Text.split_append_dot package name

theorem inPackage_append (package s t : String) :
    inPackage package (s ++ t) = inPackage package s ++ t := by
  unfold inPackage
  split
  · rfl
  · rw [← String.append_assoc]

/-- The name of a type by its package and the simple names from its outermost type inwards, with
    dots. -/
def dottedName (package : String) (names : List String) : String :=
  inPackage package (".".intercalate names)

/-- The name of a type by its package and the simple names from its outermost type inwards, with
    dollar signs between types. -/
def binaryName (package : String) (names : List String) : String :=
  inPackage package ("$".intercalate names)

/-- Packages and types can be told apart by their names. -/
structure Catalog.Dotted (c : Catalog) : Prop where
  simple : ∀ d ∈ c.declarations, d.kind ≠ .anonymous →
    '.' ∉ d.simple.toList ∧ '$' ∉ d.simple.toList
  package : ∀ e ∈ c.entries, '$' ∉ e.header.package.toList
  /-- What is at or under the dotted name of a nested type is under that of its outermost type. -/
  apart : ∀ e ∈ c.entries, ∀ d ∈ c.declarations, d.IsTop → ¬ AtOrUnder d.name e.header.package

instance (c : Catalog) : Decidable c.Dotted :=
  decidable_of_iff ((∀ d ∈ c.declarations, d.kind ≠ .anonymous →
      '.' ∉ d.simple.toList ∧ '$' ∉ d.simple.toList) ∧
      (∀ e ∈ c.entries, '$' ∉ e.header.package.toList) ∧
      ∀ e ∈ c.entries, ∀ d ∈ c.declarations, d.IsTop → ¬ AtOrUnder d.name e.header.package)
    ⟨fun ⟨simple, package, apart⟩ => ⟨simple, package, apart⟩,
      fun ⟨simple, package, apart⟩ => ⟨simple, package, apart⟩⟩

/-! ## Chains of declarations -/

/-- A type that is reached by a chain of named declarations: its package, the simple names of the
    chain from the outermost type inwards, and its binary name. -/
inductive Catalog.Path (c : Catalog) : String → List String → String → Prop where
  | top {d : Declaration} (hd : d ∈ c.declarations) (htop : d.IsTop) :
      Path c d.entry.header.package [d.simple] d.name
  | member {package outer : String} {names : List String} {d : Declaration}
      (houter : Path c package names outer) (hd : d ∈ c.declarations) (hkind : d.kind ≠ .anonymous)
      (hinside : present? d.enclosing = some outer) : Path c package (names ++ [d.simple]) d.name

namespace Catalog

variable {c : Catalog} {d : Declaration} {package name : String} {names : List String}

theorem declares_iff : c.scopes.declares name = true ↔ ∃ d ∈ c.declarations, d.name = name := by
  simp [Scopes.declares, scopes]

theorem Composed.name_top (h : c.Composed d) (htop : d.IsTop) :
    d.name = inPackage d.entry.header.package d.simple := by
  rw [h.named htop.1, Scan.memberName, htop.2]

/-- Only types at the top have names without a dollar sign. -/
theorem Composed.isTop (h : c.Composed d) (hname : '$' ∉ d.name.toList) : d.IsTop := by
  by_cases hkind : d.kind = .anonymous
  · obtain ⟨o, k, hcomposed⟩ := h.anonymous hkind
    simp [hcomposed] at hname
  · refine ⟨hkind, ?_⟩
    cases hinside : present? d.enclosing with
    | none => rfl
    | some o =>
      have hcomposed := h.named hkind
      rw [Scan.memberName, hinside] at hcomposed
      simp [hcomposed] at hname

namespace Path

variable (hpath : c.Path package names name)

include hpath

theorem declared : ∃ d ∈ c.declarations, d.name = name := by
  cases hpath with
  | top hd _ => exact ⟨_, hd, rfl⟩
  | member _ hd _ _ => exact ⟨_, hd, rfl⟩

theorem exists_top : ∃ d ∈ c.declarations, d.IsTop ∧ d.entry.header.package = package ∧
    ∃ rest, names = d.simple :: rest := by
  induction hpath with
  | top hd htop => exact ⟨_, hd, htop, rfl, [], rfl⟩
  | member _ _ _ _ ih =>
    obtain ⟨d, hd, htop, hpackage, rest, hnames⟩ := ih
    exact ⟨d, hd, htop, hpackage, rest ++ [_], by rw [hnames, List.cons_append]⟩

theorem names_plain (h : c.Dotted) : ∀ n ∈ names, '.' ∉ n.toList ∧ '$' ∉ n.toList := by
  induction hpath with
  | top hd htop =>
    intro n hn
    rw [List.mem_singleton.mp hn]
    exact h.simple _ hd htop.1
  | member _ hd hkind _ ih =>
    intro n hn
    rcases List.mem_append.mp hn with hn | hn
    · exact ih n hn
    · rw [List.mem_singleton.mp hn]
      exact h.simple _ hd hkind

theorem names_ne_nil : names ≠ [] := by
  obtain ⟨d, _, _, _, rest, hnames⟩ := hpath.exists_top
  simp [hnames]

/-- The binary name of a type is made of its package and the simple names of the chain. -/
theorem name_eq (h : ∀ d ∈ c.declarations, c.Composed d) : name = binaryName package names := by
  induction hpath with
  | top hd htop =>
    rw [(h _ hd).name_top htop, binaryName, String.intercalate_singleton]
  | member houter hd hkind hinside ih =>
    rw [(h _ hd).named hkind, Scan.memberName, hinside, binaryName,
      String.intercalate_append_of_ne_nil houter.names_ne_nil (List.cons_ne_nil _ _),
      inPackage_append, inPackage_append, String.intercalate_singleton]
    dsimp only
    rw [ih, binaryName]

end Path
end Catalog

/-! ## The longest declared leading part -/

namespace Scopes

variable {s : Scopes} {parts : List String}

theorem nestedIn?_eq_none {n : Nat}
    (h : ∀ i, 0 < i → i ≤ n → s.declares (".".intercalate (parts.take i)) = false) :
    s.nestedIn? parts n = none := by
  induction n with
  | zero => rfl
  | succ n ih =>
    have hrest := ih fun i hpos hle => h i hpos (by omega)
    simp [nestedIn?, h (n + 1) (by omega) (by omega), hrest]

theorem nestedIn?_eq_some {i n : Nat} (hpos : 0 < i) (hle : i ≤ n)
    (hdeclared : s.declares (".".intercalate (parts.take i)) = true)
    (hlonger : ∀ j, i < j → j ≤ n → s.declares (".".intercalate (parts.take j)) = false) :
    s.nestedIn? parts n = some (nestAfter i parts) := by
  induction n with
  | zero => omega
  | succ n ih =>
    by_cases hlast : i = n + 1
    · rw [nestedIn?, ← hlast, if_pos hdeclared]
    · have hrest := ih (by omega) fun j hj hjn => hlonger j hj (by omega)
      simp [nestedIn?, hlonger (n + 1) (by omega) (by omega), hrest]

end Scopes

/-- A name at the top, taken apart and put together again. -/
theorem intercalate_segments (package : String) {first : String} (hfirst : '.' ∉ first.toList) :
    ".".intercalate (segments package ++ [first]) = inPackage package first := by
  rw [← Text.split_of_not_mem hfirst, ← split_inPackage, Text.intercalate_split]

theorem nestAfter_eq_binaryName {package first : String} (hfirst : '.' ∉ first.toList)
    (rest : List String) :
    nestAfter ((segments package).length + 1) (segments package ++ first :: rest) =
      binaryName package (first :: rest) := by
  rw [binaryName, Text.intercalate_cons_eq_join, inPackage_append, ← intercalate_segments _ hfirst,
    nestAfter, List.append_cons, List.take_left' (by simp), List.drop_left' (by simp)]

namespace Catalog

variable {c : Catalog} {package name : String} {names : List String}

/-- A declared name without dollar signs is that of a type at the top; all its parts but the last
    are the package. -/
theorem exists_top_of_declares (h : c.Dotted) (hcomposed : ∀ d ∈ c.declarations, c.Composed d)
    {parts : List String} (hne : parts ≠ [])
    (hplain : ∀ part ∈ parts, '.' ∉ part.toList ∧ '$' ∉ part.toList)
    (hdeclared : c.scopes.declares (".".intercalate parts) = true) :
    ∃ d ∈ c.declarations, d.IsTop ∧ Text.split '.' d.name = parts ∧
      segments d.entry.header.package ++ [d.simple] = parts := by
  obtain ⟨d, hd, hname⟩ := declares_iff.mp hdeclared
  have hdollar : '$' ∉ (".".intercalate parts).toList :=
    Text.not_mem_intercalate (by decide) fun part hpart => (hplain part hpart).2
  have htop : d.IsTop := (hcomposed d hd).isTop (hname ▸ hdollar)
  have hsplit : Text.split '.' d.name = parts := by
    rw [hname]
    exact Text.split_intercalate hne fun part hpart => (hplain part hpart).1
  refine ⟨d, hd, htop, hsplit, ?_⟩
  rw [← hsplit, (hcomposed d hd).name_top htop, split_inPackage,
    Text.split_of_not_mem (h.simple d hd htop.1).1]

/-- Of the leading parts of a dotted name that leads into a type at the top, only that type is
    declared. A shorter one would have the package of the type under it, and a longer one would be
    in a package under the type. -/
theorem not_declares_take (h : c.Dotted) (hcomposed : ∀ d ∈ c.declarations, c.Composed d)
    {top : Declaration} (hmem : top ∈ c.declarations) (htop : top.IsTop) {rest : List String}
    (hplain : ∀ n ∈ rest, '.' ∉ n.toList ∧ '$' ∉ n.toList) {i : Nat} (hpos : 0 < i)
    (hne : i ≠ (segments top.entry.header.package).length + 1)
    (hle : i ≤ (segments top.entry.header.package).length + 1 + rest.length) :
    c.scopes.declares (".".intercalate
      ((segments top.entry.header.package ++ top.simple :: rest).take i)) = false := by
  have hentry := (hcomposed top hmem).entry
  have hfirst := h.simple top hmem htop.1
  have hname : Text.split '.' top.name = segments top.entry.header.package ++ [top.simple] := by
    rw [(hcomposed top hmem).name_top htop, split_inPackage, Text.split_of_not_mem hfirst.1]
  have hapart := h.apart top.entry hentry
  have hpackage := h.package top.entry hentry
  generalize top.entry.header.package = package at *
  have hparts : ∀ part ∈ segments package ++ top.simple :: rest,
      '.' ∉ part.toList ∧ '$' ∉ part.toList := by
    intro part hpart
    rcases List.mem_append.mp hpart with hpart | hpart
    · exact ⟨fun hdot => (mem_of_mem_segments hpart hdot).2 rfl,
        fun hdollar => hpackage (mem_of_mem_segments hpart hdollar).1⟩
    · rcases List.mem_cons.mp hpart with rfl | hpart
      · exact hfirst
      · exact hplain part hpart
  have hlength : (segments package ++ top.simple :: rest).length =
      (segments package).length + 1 + rest.length := by
    simp only [List.length_append, List.length_cons]
    omega
  rw [Bool.eq_false_iff]
  intro hdeclared
  obtain ⟨d, hd, hdtop, hsplit, hsegments⟩ := exists_top_of_declares h hcomposed
    (List.ne_nil_of_length_pos (by rw [List.length_take]; omega))
    (fun part hpart => hparts part (List.mem_of_mem_take hpart)) hdeclared
  have htake : (segments package ++ top.simple :: rest).take i <+:
      segments package ++ top.simple :: rest := List.take_prefix _ _
  by_cases hshort : i ≤ (segments package).length
  · apply hapart d hd hdtop
    have hsegment : segments package ≠ [] := List.ne_nil_of_length_pos (by omega)
    rw [atOrUnder_iff, hsplit, ← segments_eq_split hsegment]
    apply List.prefix_of_prefix_length_le htake (List.prefix_append _ _)
    rw [List.length_take]
    omega
  · apply h.apart d.entry (hcomposed d hd).entry top hmem htop
    have hcount := congrArg List.length hsegments
    rw [List.length_append, List.length_singleton, List.length_take] at hcount
    have hsegment : segments d.entry.header.package ≠ [] := List.ne_nil_of_length_pos (by omega)
    rw [atOrUnder_iff, hname, ← segments_eq_split hsegment]
    have hleft : segments package ++ [top.simple] <+: segments package ++ top.simple :: rest :=
      ⟨rest, by simp⟩
    have hright : segments d.entry.header.package <+: segments package ++ top.simple :: rest :=
      List.IsPrefix.trans ⟨[d.simple], hsegments⟩ htake
    apply List.prefix_of_prefix_length_le hleft hright
    rw [List.length_append, List.length_singleton]
    omega

/-- The dotted name of a type leads to its binary name. -/
theorem Path.toBinary_eq (hpath : c.Path package names name) (h : c.Dotted)
    (hcomposed : ∀ d ∈ c.declarations, c.Composed d) :
    c.scopes.toBinary (dottedName package names) = name := by
  have hname := hpath.name_eq hcomposed
  have hdeclared := declares_iff.mpr hpath.declared
  have hplain := hpath.names_plain h
  obtain ⟨top, hmem, htop, hpackage, rest, hnames⟩ := hpath.exists_top
  subst hpackage hnames
  obtain ⟨⟨hfirst, _⟩, hplainRest⟩ := List.forall_mem_cons.mp hplain
  have hnone := fun i => not_declares_take (i := i) h hcomposed hmem htop hplainRest
  have hparts : Text.split '.' (dottedName top.entry.header.package (top.simple :: rest)) =
      segments top.entry.header.package ++ top.simple :: rest := by
    rw [dottedName, split_inPackage, Text.split_intercalate (List.cons_ne_nil _ _)]
    exact fun n hn => (hplain n hn).1
  have hlength : (segments top.entry.header.package ++ top.simple :: rest).length - 1 =
      (segments top.entry.header.package).length + rest.length := by
    simp only [List.length_append, List.length_cons]
    omega
  unfold Scopes.toBinary
  simp only [hparts, hlength]
  by_cases hrest : rest = []
  · -- No part of the package is declared, but the type at the top is.
    have hzero : rest.length = 0 := by rw [hrest, List.length_nil]
    have heq : dottedName top.entry.header.package (top.simple :: rest) = name := by
      rw [hname, hrest, dottedName, binaryName, String.intercalate_singleton,
        String.intercalate_singleton]
    rw [Scopes.nestedIn?_eq_none fun i hpos hle => hnone i hpos (by omega) (by omega), heq]
    simp only [hdeclared, if_true]
  · have hlong := List.length_pos_iff.mpr hrest
    have htake : c.scopes.declares (".".intercalate
        ((segments top.entry.header.package ++ top.simple :: rest).take
          ((segments top.entry.header.package).length + 1))) = true := by
      rw [List.append_cons, List.take_left' (by simp), intercalate_segments _ hfirst,
        ← (hcomposed top hmem).name_top htop]
      exact declares_iff.mpr ⟨top, hmem, rfl⟩
    rw [Scopes.nestedIn?_eq_some (by omega) (by omega) htake
      fun i hlt hle => hnone i (by omega) (by omega) (by omega), hname]
    exact nestAfter_eq_binaryName hfirst rest

end Catalog

/-! ## Imports -/

/-- The dotted name of the type that a node imports, if it imports a single type. -/
def Entry.importedType? (e : Entry) (t : Tree) : Option String :=
  if t.kind == .importDeclaration && (t.child? [.staticKeyword]).isNone &&
      (t.child? [.asterisk]).isNone then
    (t.child? [.scopedIdentifier, .identifier]).map e.textOf
  else none

/-- The dotted names of the types that a file imports one by one, in order. -/
def Entry.importedTypes (e : Entry) : List String :=
  e.tree.constructs.filterMap e.importedType?

theorem imports_readNode (e : Entry) (h : Header) (t : Tree) :
    (h.readNode e t).imports = match e.importedType? t with
      | some dotted => Json.setMember (Text.afterLast '.' dotted) dotted h.imports
      | none => h.imports := by
  unfold Header.readNode Entry.importedType?
  split
  · rename_i hkind
    unfold Header.readPackage
    split <;> simp [hkind]
  · rename_i hkind
    unfold Header.readImport
    split
    · rename_i name hstatic hname
      split
      · rename_i hasterisk
        simp [hstatic, Option.isSome_iff_ne_none.mp hasterisk]
      · rename_i hasterisk
        simp [hkind, hstatic, hname, Option.not_isSome_iff_eq_none.mp hasterisk]
    · rename_i hother
      cases hstatic : t.child? [.staticKeyword] with
      | some _ => simp
      | none =>
        cases hname : t.child? [.scopedIdentifier, .identifier] with
        | some name => exact absurd hname (hother name hstatic)
        | none => simp
  · rename_i _ hkind
    have hkind : t.kind ≠ .importDeclaration := hkind
    simp [hkind]

/-- Of the imports of a simple name, the last one counts. -/
theorem lookup_imports_foldl (e : Entry) (simple : String) (h : Header) (ts : List Tree) :
    (ts.foldl (Header.readNode e) h).imports.lookup simple =
      (((ts.filterMap e.importedType?).filter fun dotted =>
        simple = Text.afterLast '.' dotted).getLast?).or (h.imports.lookup simple) := by
  induction ts using List.reverseRecOn with
  | nil => rfl
  | append_singleton ts t ih =>
    rw [List.foldl_concat, imports_readNode]
    cases himported : e.importedType? t with
    | none => simp [himported, ih]
    | some dotted =>
      simp only [lookup_setMember, ih]
      by_cases hsimple : simple = Text.afterLast '.' dotted
      · simp [himported, hsimple]
      · simp [himported, hsimple]

theorem lookup_imports {e : Entry} {simple dotted : String} {before after : List String}
    (himports : e.importedTypes = before ++ dotted :: after)
    (hdotted : Text.afterLast '.' dotted = simple)
    (hlast : ∀ later ∈ after, Text.afterLast '.' later ≠ simple) :
    (Header.read e).imports.lookup simple = some dotted := by
  have hafter : after.filter (fun later => simple = Text.afterLast '.' later) = [] := by
    rw [List.filter_eq_nil_iff]
    intro later hlater
    simpa using fun heq : simple = _ => hlast later hlater heq.symm
  have himports : e.tree.constructs.filterMap e.importedType? = before ++ dotted :: after :=
    himports
  rw [Header.read, lookup_imports_foldl, himports, List.filter_append, List.filter_cons, hafter]
  simp [hdotted]

theorem Indexer.header_ofFiles (room : Nat) (files : List File) :
    ∀ e ∈ (ofFiles room files).catalog.entries, e.header = Header.read e := by
  induction files using List.reverseRecOn with
  | nil => exact fun e he => absurd he List.not_mem_nil
  | append_singleton files f ih =>
    intro e he
    rw [ofFiles_concat] at he
    have hentries := Catalog.Grown.entries_eq (Catalog.add_grown (ofFiles room files).catalog f)
    have he : e ∈ ((ofFiles room files).catalog.withEntry
        ((ofFiles room files).catalog.entryOf f)).entries := hentries ▸ he
    rcases List.mem_append.mp he with he | he
    · exact ih e he
    · rw [List.mem_singleton.mp he]
      rfl

/-! ## Resolving -/

/-- The type is the scope itself or stands around it. -/
inductive Scopes.Encloses (s : Scopes) : Option String → String → Prop where
  | self {scope : Option String} {n : String} (hscope : present? scope = some n) :
      Encloses s scope n
  | outer {scope : Option String} {inner n : String} (hscope : present? scope = some inner)
      (houter : Encloses s (s.enclosing? inner) n) : Encloses s scope n

theorem Scopes.encloses_of_mem_aroundFrom {s : Scopes} (fuel : Nat) {scope : Option String}
    {n : String} (h : n ∈ s.aroundFrom fuel scope) : s.Encloses scope n := by
  induction fuel generalizing scope with
  | zero => exact absurd h List.not_mem_nil
  | succ fuel ih =>
    rw [aroundFrom] at h
    cases hscope : present? scope with
    | none => simp [hscope] at h
    | some inner =>
      rw [hscope] at h
      rcases List.mem_cons.mp h with rfl | h
      · exact .self hscope
      · exact .outer hscope (ih h)

/-- The simple name is not used by the scope or a type around it. -/
def Scopes.Free (s : Scopes) (scope : Option String) (simple : String) : Prop :=
  ∀ n, s.Encloses scope n → simpleName n ≠ simple ∧ s.declares (n ++ "$" ++ simple) = false

/-- Where no type around uses a simple name, an import of it decides. -/
theorem Scopes.resolveClass_imported {s : Scopes} {h : Header} {scope : Option String}
    {simple dotted : String} (hsimple : '.' ∉ simple.toList) (hfree : s.Free scope simple)
    (himport : h.imports.lookup simple = some dotted) :
    s.resolveClass h scope simple = s.toBinary dotted := by
  have haround : (s.around scope).findSome? (s.memberOf? simple) = none := by
    rw [List.findSome?_eq_none_iff]
    intro n hn
    obtain ⟨hname, hmember⟩ := hfree n (encloses_of_mem_aroundFrom _ hn)
    simp [memberOf?, hname, hmember]
  unfold resolveClass simple?
  simp [Text.beforeFirst_of_not_mem hsimple, Text.afterFirst_of_not_mem hsimple, haround, himport]

theorem afterLast_dottedName (package : String) (outer : List String) {simple : String}
    (hsimple : '.' ∉ simple.toList) :
    Text.afterLast '.' (dottedName package (outer ++ [simple])) = simple := by
  unfold dottedName
  by_cases houter : outer = []
  · rw [houter, List.nil_append, String.intercalate_singleton, inPackage]
    split
    · exact Text.afterLast_of_not_mem hsimple
    · exact Text.afterLast_append_dot hsimple
  · rw [String.intercalate_append_of_ne_nil houter (List.cons_ne_nil _ _), inPackage_append,
      inPackage_append, String.intercalate_singleton]
    exact Text.afterLast_append_dot hsimple

/-- The dotted name of a type that is declared in a chain of types leads to its binary name, and so
    does its simple name in a file that imports it, last among the imports of that simple name,
    wherever no type around uses it. -/
theorem Indexer.dotted_name_resolves (room : Nat) (files : List File)
    (h : (ofFiles room files).catalog.Dotted) {package name : String} {names : List String}
    (hpath : (ofFiles room files).catalog.Path package names name) :
    name = binaryName package names ∧
      (ofFiles room files).catalog.scopes.toBinary (dottedName package names) = name ∧
      ∀ simple, names.getLast? = some simple →
        ∀ e ∈ (ofFiles room files).catalog.entries, ∀ before after,
          e.importedTypes = before ++ dottedName package names :: after →
          (∀ later ∈ after, Text.afterLast '.' later ≠ simple) →
          ∀ scope, (ofFiles room files).catalog.scopes.Free scope simple →
            (ofFiles room files).catalog.scopes.resolveClass e.header scope simple = name := by
  have hcomposed := composed_ofFiles room files
  have hbinary := hpath.toBinary_eq h hcomposed
  refine ⟨hpath.name_eq hcomposed, hbinary, ?_⟩
  intro simple hlast e he before after himports hafter scope hfree
  obtain ⟨outer, rfl⟩ := List.getLast?_eq_some_iff.mp hlast
  have hsimple := (hpath.names_plain h simple (List.mem_append_right _ List.mem_cons_self)).1
  have hlookup := lookup_imports himports (afterLast_dottedName package outer hsimple) hafter
  rw [header_ofFiles room files e he, Scopes.resolveClass_imported hsimple hfree hlookup, hbinary]

/-- The file `package p; class A { class B {} }`. -/
def outerFile : File where
  path := some "A.java"
  text := "package p; class A { class B {} }".toUTF8.data
  tree := .node ⟨.other "program", true, 0, 0, 33, none⟩
    [.node ⟨.packageDeclaration, true, 1, 0, 10, none⟩
       [.node ⟨.identifier, true, 2, 8, 9, none⟩ []],
     classAt 3 11 33 17 [classAt 6 21 31 27 []]]

/-- The file `package q; import p.A.B; class C {}`. -/
def importingFile : File where
  path := some "C.java"
  text := "package q; import p.A.B; class C {}".toUTF8.data
  tree := .node ⟨.other "program", true, 0, 0, 35, none⟩
    [.node ⟨.packageDeclaration, true, 1, 0, 10, none⟩
       [.node ⟨.identifier, true, 2, 8, 9, none⟩ []],
     .node ⟨.importDeclaration, true, 3, 11, 24, none⟩
       [.node ⟨.scopedIdentifier, true, 4, 18, 23, none⟩ []],
     classAt 5 25 35 31 []]

/-- The member of a class of another package, by its dotted name and by an import of it. -/
theorem Indexer.imported_member_resolves :
    (ofFiles 100 [outerFile, importingFile]).catalog.Dotted ∧
      (ofFiles 100 [outerFile, importingFile]).catalog.Path "p" ["A", "B"] "p.A$B" ∧
      (ofFiles 100 [outerFile, importingFile]).catalog.scopes.toBinary "p.A.B" = "p.A$B" ∧
      ∃ e ∈ (ofFiles 100 [outerFile, importingFile]).catalog.entries, e.importedTypes = ["p.A.B"] ∧
        (ofFiles 100 [outerFile, importingFile]).catalog.scopes.Free (some "q.C") "B" ∧
        (ofFiles 100 [outerFile, importingFile]).catalog.scopes.resolveClass e.header
          (some "q.C") "B" = "p.A$B" := by
  have hdotted : (ofFiles 100 [outerFile, importingFile]).catalog.Dotted := by decide +kernel
  have houter : ∃ d ∈ (ofFiles 100 [outerFile, importingFile]).catalog.declarations, d.IsTop ∧
      d.entry.header.package = "p" ∧ d.simple = "A" ∧ d.name = "p.A" := by decide +kernel
  have hinner : ∃ d ∈ (ofFiles 100 [outerFile, importingFile]).catalog.declarations,
      d.kind ≠ .anonymous ∧ present? d.enclosing = some "p.A" ∧ d.simple = "B" ∧
      d.name = "p.A$B" := by decide +kernel
  have hentry : ∃ e ∈ (ofFiles 100 [outerFile, importingFile]).catalog.entries,
      e.importedTypes = ["p.A.B"] := by decide +kernel
  have hpath : (ofFiles 100 [outerFile, importingFile]).catalog.Path "p" ["A", "B"] "p.A$B" := by
    obtain ⟨d, hd, htop, hpackage, hsimple, hname⟩ := houter
    obtain ⟨d', hd', hkind, hinside, hsimple', hname'⟩ := hinner
    have hpath := Catalog.Path.top hd htop
    rw [hpackage, hsimple, hname] at hpath
    simpa [hsimple', hname'] using hpath.member hd' hkind hinside
  have hfree : (ofFiles 100 [outerFile, importingFile]).catalog.scopes.Free (some "q.C") "B" := by
    intro n hn
    cases hn with
    | self hscope =>
      obtain rfl : "q.C" = n := Option.some.inj (Option.filter_eq_some_iff.mp hscope).1
      decide +kernel
    | outer hscope hn =>
      obtain rfl := Option.some.inj (Option.filter_eq_some_iff.mp hscope).1
      have htop : (ofFiles 100 [outerFile, importingFile]).catalog.scopes.enclosing? "q.C" =
          none := by decide +kernel
      rw [htop] at hn
      cases hn <;> contradiction
  obtain ⟨e, he, himports⟩ := hentry
  obtain ⟨_, hbinary, hresolves⟩ :=
    dotted_name_resolves 100 [outerFile, importingFile] hdotted hpath
  have hname : dottedName "p" ["A", "B"] = "p.A.B" := by decide +kernel
  rw [hname] at hbinary hresolves
  refine ⟨hdotted, hpath, hbinary, e, he, himports, hfree, ?_⟩
  exact hresolves "B" rfl e he [] [] himports (fun later hlater => absurd hlater List.not_mem_nil)
    (some "q.C") hfree

end ServiceReach.Index

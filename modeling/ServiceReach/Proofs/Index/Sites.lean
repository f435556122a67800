import ServiceReach.Proofs.Index.Files
import ServiceReach.Proofs.Source.Nodes

/-
  The types of a file. `sites` lists the nodes of a tree that declare a type, in source order: the
  declarations with a name, wherever they stand, and the object creations with a class body inside a
  type (`mem_sites_iff`), each once (`sites_subperm`) and with the nearest type around it, whatever
  blocks and members stand between. Where simple names are plain, recording the declarations of a
  tree is naming and recording its sites one after the other (`foldl_add_sites`).
-/

namespace ServiceReach.Index

open Source Tree
open scoped List

/-- A node that declares a type. -/
structure Site where
  node : Tree
  /-- The place of the type around it, among the types of the file. -/
  owner : Option Nat
  kind : DeclKind
  /-- The simple name; an anonymous class has none. -/
  simple : Option String

/-- What a node declares inside `owner`, and which of its children, by their numbers, are inside the
    type that it declares. -/
def Entry.site? (e : Entry) (owner : Option Nat) (t : Tree) : Option (Site × (Nat → Bool)) :=
  match DeclKind.ofNode? t.kind with
  | some kind =>
    (t.field? .name).map fun name => (⟨t, owner, kind, some (e.textOf name)⟩, fun _ => true)
  | none =>
    if t.kind == .objectCreationExpression && owner.isSome then
      (t.child? [.classBody]).map fun body =>
        (⟨t, owner, .anonymous, none⟩, fun id => id == body.id)
    else none

mutual

/-- The types that a tree declares inside `owner`, in source order, where `first` types of the file
    come before. -/
def sites (e : Entry) (owner : Option Nat) (first : Nat) : Tree → List Site
  | .node label children =>
    match e.site? owner (.node label children) with
    | none => sitesAll e (fun _ => owner) first children
    | some (x, inner) =>
      x :: sitesAll e (fun id => if inner id then some first else owner) (first + 1) children

/-- The types that sibling trees declare, each inside the type around it. -/
def sitesAll (e : Entry) (owners : Nat → Option Nat) (first : Nat) : List Tree → List Site
  | [] => []
  | t :: rest =>
    let found := sites e (owners t.id) first t
    found ++ sitesAll e owners (first + found.length) rest

end

/-- The types that a file declares. -/
def File.sites (f : File) : List Site :=
  Index.sites f.entry none 0 f.tree

theorem sites_eq (e : Entry) (owner : Option Nat) (first : Nat) (t : Tree) :
    sites e owner first t =
      match e.site? owner t with
      | none => sitesAll e (fun _ => owner) first t.children
      | some (x, inner) =>
        x :: sitesAll e (fun id => if inner id then some first else owner) (first + 1)
          t.children := by
  cases t
  rw [sites]
  rfl

/-! ## The nodes that are listed -/

/-- Whether a node declares a type by name. -/
def declaresByName (t : Tree) : Bool :=
  (DeclKind.ofNode? t.kind).isSome && (t.field? .name).isSome

/-- Whether a node creates an object of an anonymous class. -/
def createsClass (t : Tree) : Bool :=
  t.kind == .objectCreationExpression && (t.child? [.classBody]).isSome

/-- A node of the tree declares a type, if the tree is inside one or not. -/
def DeclaresType (inside : Bool) (t u : Tree) : Prop :=
  u ∈ t.nodes ∧ (declaresByName u = true ∨ (createsClass u = true ∧
    (inside = true ∨ ∃ v ∈ t.nodes, declaresByName v = true ∧ u ∈ nodesAll v.children)))

variable {e : Entry} {t u v : Tree} {owner : Option Nat} {inside : Bool}

theorem mem_nodes_of_inside (hv : v ∈ t.nodes) (hu : u ∈ nodesAll v.children) : u ∈ t.nodes :=
  (nodes_sublist hv).subset ((nodesAll_children_sublist v).subset hu)

theorem depth_lt_of_inside (hv : v ∈ t.nodes) (hu : u ∈ nodesAll v.children) :
    u.depth < t.depth := by
  rw [nodesAll_eq] at hu
  obtain ⟨c, hc, hu⟩ := List.mem_flatMap.mp hu
  have hchild := depth_lt_of_mem_children hc
  have hnode := depth_le_of_mem_nodes hu
  have hroot := depth_le_of_mem_nodes hv
  omega

theorem declaresType_true_iff :
    DeclaresType true t u ↔
      u ∈ t.nodes ∧ (declaresByName u = true ∨ createsClass u = true) := by
  unfold DeclaresType
  simp only [true_or, and_true]

/-- Inside a type, a node that declares one adds itself to what its children declare. -/
theorem declaresType_true_of_root (h : declaresByName t = true ∨ createsClass t = true) :
    DeclaresType true t u ↔ u = t ∨ ∃ c ∈ t.children, DeclaresType true c u := by
  simp only [declaresType_true_iff]
  constructor
  · rintro ⟨hu, hdeclares⟩
    rcases mem_nodes_iff.mp hu with rfl | ⟨c, hc, hu⟩
    · exact Or.inl rfl
    · exact Or.inr ⟨c, hc, hu, hdeclares⟩
  · rintro (rfl | ⟨c, hc, hu, hdeclares⟩)
    · exact ⟨mem_nodes_self u, h⟩
    · exact ⟨mem_nodes_iff.mpr (Or.inr ⟨c, hc, hu⟩), hdeclares⟩

/-- It does not matter what is around a type with a name. -/
theorem declaresType_of_declaresByName (h : declaresByName t = true) (inside : Bool) :
    DeclaresType inside t u ↔ DeclaresType true t u := by
  rw [declaresType_true_iff]
  unfold DeclaresType
  refine and_congr_right fun hu => ?_
  constructor
  · exact Or.imp_right fun hcreates => hcreates.1
  · rintro (hnamed | hcreates)
    · exact Or.inl hnamed
    · rcases mem_nodes_iff.mp hu with rfl | ⟨c, hc, hu⟩
      · exact Or.inl h
      · refine Or.inr ⟨hcreates, Or.inr ⟨t, mem_nodes_self t, h, ?_⟩⟩
        rw [nodesAll_eq]
        exact List.mem_flatMap.mpr ⟨c, hc, hu⟩

/-- A node that declares no type leaves it to its children. -/
theorem declaresType_of_silent (hnamed : declaresByName t = false)
    (hcreates : createsClass t = true → inside = false) :
    DeclaresType inside t u ↔ ∃ c ∈ t.children, DeclaresType inside c u := by
  constructor
  · rintro ⟨hu, hdeclares⟩
    rcases mem_nodes_iff.mp hu with rfl | ⟨c, hc, huc⟩
    · rcases hdeclares with h | ⟨h, h' | ⟨v, hv, _, hinside⟩⟩
      · rw [hnamed] at h
        cases h
      · rw [hcreates h] at h'
        cases h'
      · exact absurd (depth_lt_of_inside hv hinside) (Nat.lt_irrefl _)
    · rcases hdeclares with h | ⟨h, h' | ⟨v, hv, hdeclares, hinside⟩⟩
      · exact ⟨c, hc, huc, Or.inl h⟩
      · exact ⟨c, hc, huc, Or.inr ⟨h, Or.inl h'⟩⟩
      · rcases mem_nodes_iff.mp hv with rfl | ⟨d, hd, hvd⟩
        · rw [hnamed] at hdeclares
          cases hdeclares
        · exact ⟨d, hd, mem_nodes_of_inside hvd hinside, Or.inr ⟨h, Or.inr ⟨v, hvd, hdeclares,
            hinside⟩⟩⟩
  · rintro ⟨c, hc, hu, hdeclares⟩
    refine ⟨mem_nodes_iff.mpr (Or.inr ⟨c, hc, hu⟩), hdeclares.imp_right ?_⟩
    rintro ⟨h, h' | ⟨v, hv, hdeclares, hinside⟩⟩
    · exact ⟨h, Or.inl h'⟩
    · exact ⟨h, Or.inr ⟨v, mem_nodes_iff.mpr (Or.inr ⟨c, hc, hv⟩), hdeclares, hinside⟩⟩

/-- A node declares no type, or one by name, or is an anonymous class of the type around it. -/
theorem site?_cases (e : Entry) (owner : Option Nat) (t : Tree) :
    (e.site? owner t = none ∧ declaresByName t = false ∧
      (createsClass t = true → owner = none)) ∨
    (∃ kind name, DeclKind.ofNode? t.kind = some kind ∧ t.field? .name = some name ∧
      e.site? owner t = some (⟨t, owner, kind, some (e.textOf name)⟩, fun _ => true)) ∨
    ∃ i body, owner = some i ∧ DeclKind.ofNode? t.kind = none ∧
      t.kind = .objectCreationExpression ∧ t.child? [.classBody] = some body ∧
      e.site? owner t = some (⟨t, owner, .anonymous, none⟩, fun id => id == body.id) := by
  unfold Entry.site? declaresByName createsClass
  cases hdecl : DeclKind.ofNode? t.kind with
  | some kind =>
    cases hname : t.field? .name with
    | none =>
      refine Or.inl ⟨rfl, rfl, fun hcreates => ?_⟩
      have hkind := beq_iff_eq.mp (Bool.and_eq_true_iff.mp hcreates).1
      rw [hkind] at hdecl
      cases hdecl
    | some name => exact Or.inr (Or.inl ⟨kind, name, rfl, rfl, rfl⟩)
  | none =>
    by_cases hkind : t.kind = .objectCreationExpression
    · cases owner with
      | none => exact Or.inl ⟨by simp, rfl, fun _ => rfl⟩
      | some i =>
        cases hbody : t.child? [.classBody] with
        | none => exact Or.inl ⟨by simp, rfl, by simp⟩
        | some body => exact Or.inr (Or.inr ⟨i, body, rfl, rfl, hkind, rfl, by simp [hkind]⟩)
    · exact Or.inl ⟨by simp [hkind], rfl, by simp [hkind]⟩

/-- The nodes of the types that a tree declares. -/
theorem mem_sites_iff {first : Nat} :
    u ∈ (sites e owner first t).map Site.node ↔ DeclaresType owner.isSome t u := by
  refine forall_of_forest
    (P := fun t => ∀ owner first,
      u ∈ (sites e owner first t).map Site.node ↔ DeclaresType owner.isSome t u)
    (Q := fun ts => ∀ owners first, u ∈ (sitesAll e owners first ts).map Site.node ↔
      ∃ c ∈ ts, DeclaresType (owners c.id).isSome c u) ?_ ?_ ?_ t owner first
  · simp [sitesAll]
  · intro t ts iht ihts owners first
    rw [sitesAll]
    simp only [List.map_append, List.mem_append, iht, ihts, List.mem_cons, or_and_right, exists_or,
      exists_eq_left]
  · intro t ih owner first
    rw [sites_eq]
    rcases site?_cases e owner t with
      ⟨hsite, hnamed, hcreates⟩ | ⟨kind, name, hkind, hname, hsite⟩ |
        ⟨i, body, rfl, _, hkind, hbody, hsite⟩
    · rw [hsite, declaresType_of_silent hnamed fun h => by rw [hcreates h]; rfl]
      exact ih _ first
    · have hnamed : declaresByName t = true := by rw [declaresByName, hkind, hname]; rfl
      rw [hsite, declaresType_of_declaresByName hnamed, declaresType_true_of_root (Or.inl hnamed)]
      dsimp only
      rw [List.map_cons, List.mem_cons, ih]
      rfl
    · have hcreates : createsClass t = true := by rw [createsClass, hkind, hbody]; rfl
      rw [hsite, Option.isSome_some, declaresType_true_of_root (Or.inr hcreates)]
      dsimp only
      rw [List.map_cons, List.mem_cons, ih]
      simp only [apply_ite Option.isSome, Option.isSome_some, ite_self]

/-- Each node of a tree is listed at most once. -/
theorem sites_subperm {first : Nat} :
    (sites e owner first t).map Site.node <+~ t.nodes := by
  refine forall_of_forest
    (P := fun t => ∀ owner first, (sites e owner first t).map Site.node <+~ t.nodes)
    (Q := fun ts => ∀ owners first, (sitesAll e owners first ts).map Site.node <+~ nodesAll ts)
    ?_ ?_ ?_ t owner first
  · exact fun _ _ => List.Subperm.refl []
  · intro t ts iht ihts owners first
    rw [sitesAll, List.map_append, nodesAll_eq, List.flatMap_cons, ← nodesAll_eq]
    exact (iht _ _).append (ihts _ _)
  · intro t ih owner first
    have hroot : t :: nodesAll t.children <+~ t.nodes := by
      rw [nodes_eq]
      exact (List.perm_append_singleton t (nodesAll t.children)).symm.subperm
    rw [sites_eq]
    rcases site?_cases e owner t with
      ⟨hsite, _⟩ | ⟨kind, name, _, _, hsite⟩ | ⟨i, body, rfl, _, _, _, hsite⟩
    · rw [hsite]
      exact (ih _ _).trans (nodesAll_children_sublist t).subperm
    · rw [hsite]
      exact ((List.subperm_cons t).mpr (ih _ _)).trans hroot
    · rw [hsite]
      exact ((List.subperm_cons t).mpr (ih _ _)).trans hroot

/-! ## Owners -/

/-- Each type comes after the type around it, and an anonymous class has one. -/
def WellOwned (first : Nat) (xs : List Site) : Prop :=
  ∀ k x, xs[k]? = some x → (∀ i, x.owner = some i → i < first + k) ∧
    (x.simple = none → x.owner.isSome = true)

theorem WellOwned.append {first : Nat} {xs ys : List Site} (hx : WellOwned first xs)
    (hy : WellOwned (first + xs.length) ys) : WellOwned first (xs ++ ys) := by
  intro k y hk
  rw [List.getElem?_append] at hk
  split at hk
  · exact hx k y hk
  · obtain ⟨howner, hnamed⟩ := hy _ y hk
    exact ⟨fun i hi => by have := howner i hi; omega, hnamed⟩

theorem wellOwned_singleton {first : Nat} {x : Site} (howner : ∀ i, x.owner = some i → i < first)
    (hnamed : x.simple = none → x.owner.isSome = true) : WellOwned first [x] := by
  intro k y hk
  obtain ⟨hlt, rfl⟩ := List.getElem?_eq_some_iff.mp hk
  rw [List.length_singleton] at hlt
  have hzero : k = 0 := by omega
  subst hzero
  exact ⟨howner, hnamed⟩

theorem wellOwned_sites {first : Nat} (howner : ∀ i, owner = some i → i < first) :
    WellOwned first (sites e owner first t) := by
  refine forall_of_forest
    (P := fun t => ∀ (owner : Option Nat) (first : Nat), (∀ i, owner = some i → i < first) →
      WellOwned first (sites e owner first t))
    (Q := fun ts => ∀ (owners : Nat → Option Nat) (first : Nat),
      (∀ id i, owners id = some i → i < first) → WellOwned first (sitesAll e owners first ts))
    ?_ ?_ ?_ t owner first howner
  · exact fun _ _ _ k x hk => by cases hk
  · intro t ts iht ihts owners first howners
    rw [sitesAll]
    refine (iht _ _ (howners t.id)).append (ihts owners _ fun id i hi => ?_)
    have := howners id i hi
    omega
  · intro t ih owner first howner
    rw [sites_eq]
    rcases site?_cases e owner t with
      ⟨hsite, _⟩ | ⟨kind, name, _, _, hsite⟩ | ⟨i, body, rfl, _, _, _, hsite⟩
    · rw [hsite]
      exact ih _ first fun _ => howner
    · rw [hsite]
      refine (wellOwned_singleton howner fun h => by cases h).append (ih _ _ ?_)
      intro id i hi
      cases hi
      exact Nat.lt_succ_self first
    · rw [hsite]
      refine (wellOwned_singleton howner fun _ => rfl).append (ih _ _ ?_)
      intro id j hj
      dsimp only at hj
      split at hj
      · cases hj
        exact Nat.lt_succ_self first
      · have := howner j hj
        exact Nat.lt_succ_of_lt this

/-! ## Naming -/

/-- The scan of some sites, and the names that they got. -/
structure Naming where
  scan : Scan
  names : List String := []

namespace Naming

/-- The name of the type around a site. -/
def ownerName (n : Naming) (owner : Option Nat) : Option String :=
  owner.bind fun i => n.names[i]?

/-- Names a type and records it. -/
def add (e : Entry) (n : Naming) (x : Site) : Naming :=
  match x.simple with
  | some simple =>
    let name := Scan.memberName e (n.ownerName x.owner) simple
    ⟨n.scan.register ⟨name, x.node, e, x.kind, n.ownerName x.owner⟩, n.names ++ [name]⟩
  | none =>
    let (name, s) := n.scan.registerAnonymous e ((n.ownerName x.owner).getD "") x.node
    ⟨s, n.names ++ [name]⟩

/-- If there is a type around, it has a name that is not empty. -/
def Valid (n : Naming) (owner : Option Nat) : Prop :=
  ∀ i, owner = some i → ∃ o, n.names[i]? = some o ∧ o ≠ ""

theorem names_add (e : Entry) (n : Naming) (x : Site) :
    ∃ name, (n.add e x).names = n.names ++ [name] := by
  unfold add
  cases x.simple with
  | some simple => exact ⟨_, rfl⟩
  | none => exact ⟨_, rfl⟩

theorem names_foldl_add (e : Entry) (xs : List Site) (n : Naming) :
    n.names <+: (xs.foldl (add e) n).names ∧
      (xs.foldl (add e) n).names.length = n.names.length + xs.length := by
  induction xs generalizing n with
  | nil => exact ⟨List.prefix_rfl, rfl⟩
  | cons x xs ih =>
    obtain ⟨name, hname⟩ := n.names_add e x
    obtain ⟨hstay, hlength⟩ := ih (n.add e x)
    rw [hname] at hstay hlength
    rw [List.length_append, List.length_singleton] at hlength
    refine ⟨(List.prefix_append _ _).trans hstay, ?_⟩
    rw [List.foldl_cons, hlength, List.length_cons]
    omega

variable {n n' : Naming}

theorem getElem?_mono {l l' : List String} (h : l <+: l') {i : Nat} {a : String}
    (ha : l[i]? = some a) : l'[i]? = some a := by
  obtain ⟨rest, rfl⟩ := h
  rw [List.getElem?_append_left (List.getElem?_eq_some_iff.mp ha).1]
  exact ha

theorem Valid.ownerName_eq (h : n.Valid owner) (hn : n.names <+: n'.names) :
    n'.ownerName owner = n.ownerName owner := by
  cases owner with
  | none => rfl
  | some i =>
    obtain ⟨o, ho, _⟩ := h i rfl
    exact (getElem?_mono hn ho).trans ho.symm

theorem Valid.mono (h : n.Valid owner) (hn : n.names <+: n'.names) : n'.Valid owner := by
  intro i hi
  obtain ⟨o, ho, hne⟩ := h i hi
  exact ⟨o, getElem?_mono hn ho, hne⟩

theorem present?_of_ne_empty {o : String} (h : o ≠ "") : present? (some o) = some o := by
  rw [present?, Option.filter_some, if_pos]
  simpa [String.isEmpty_iff] using h

theorem Valid.present? (h : n.Valid owner) :
    ServiceReach.present? (n.ownerName owner) = n.ownerName owner := by
  cases owner with
  | none => rfl
  | some i =>
    obtain ⟨o, ho, hne⟩ := h i rfl
    have howner : n.ownerName (some i) = some o := ho
    rw [howner, present?_of_ne_empty hne]

end Naming

/-- A simple name as an identifier without `$`: it does not start with a digit. -/
def IsPlain (s : String) : Prop :=
  s.toList.head?.any (fun c => !c.isDigit) = true ∧ '$' ∉ s.toList

instance (s : String) : Decidable (IsPlain s) :=
  inferInstanceAs (Decidable (_ ∧ _))

theorem IsPlain.ne_empty {s : String} (h : IsPlain s) : s ≠ "" := by
  rintro rfl
  cases h.1

/-- The simple name is plain, if there is one. -/
def Site.HasPlainName (x : Site) : Prop :=
  ∀ s ∈ x.simple, IsPlain s

instance (x : Site) : Decidable x.HasPlainName :=
  inferInstanceAs (Decidable (∀ s ∈ x.simple, IsPlain s))

namespace Naming

variable {n n' : Naming} {x : Site} {inner : Nat → Bool}

theorem memberName_ne_empty {owner : Option String} {s : String} (hs : s ≠ "") :
    Scan.memberName e owner s ≠ "" := by
  unfold Scan.memberName inPackage
  split
  · exact fun h => hs (String.append_eq_empty_iff.mp h).2
  · split
    · exact hs
    · exact fun h => hs (String.append_eq_empty_iff.mp h).2

/-- The type that was named last is there for what is inside it. -/
theorem valid_add (hx : x.HasPlainName) : (n.add e x).Valid (some n.names.length) := by
  rintro _ ⟨⟩
  unfold add
  cases hsimple : x.simple with
  | some s =>
    exact ⟨_, List.getElem?_concat_length, memberName_ne_empty (hx s hsimple).ne_empty⟩
  | none =>
    refine ⟨_, List.getElem?_concat_length, fun h => ?_⟩
    have hsign := (String.append_eq_empty_iff.mp (String.append_eq_empty_iff.mp h).1).2
    exact absurd hsign (by decide)

/-- A node that declares no type changes nothing. -/
theorem enter_of_site?_none (hn : n.Valid owner) (h : e.site? owner t = none) :
    n.scan.enter e (n.ownerName owner) t = (fun _ => n.ownerName owner, n.scan) := by
  unfold Entry.site? at h
  unfold Scan.enter
  cases hdecl : DeclKind.ofNode? t.kind with
  | some kind =>
    rw [hdecl] at h
    rw [Option.map_eq_none_iff.mp h]
  | none =>
    rw [hdecl] at h
    dsimp only at h ⊢
    by_cases hkind : t.kind = .objectCreationExpression
    · rw [if_pos (beq_iff_eq.mpr hkind), hn.present?]
      cases owner with
      | none => rfl
      | some i =>
        rw [hkind] at h
        rw [Option.map_eq_none_iff.mp h]
        cases n.ownerName (some i) with
        | none => rfl
        | some o => rfl
    · rw [if_neg (mt beq_iff_eq.mp hkind)]

/-- A node that declares a type names and records it. -/
theorem enter_of_site?_some (hn : n.Valid owner) (h : e.site? owner t = some (x, inner)) :
    n.scan.enter e (n.ownerName owner) t =
      (fun id => (n.add e x).ownerName (if inner id then some n.names.length else owner),
        (n.add e x).scan) := by
  rcases site?_cases e owner t with
    ⟨hsite, _⟩ | ⟨kind, name, hkind, hname, hsite⟩ |
      ⟨i, body, rfl, hdecl, hkind, hbody, hsite⟩
  · cases hsite.symm.trans h
  · cases hsite.symm.trans h
    unfold Scan.enter
    rw [hkind, hname]
    refine Prod.ext (funext fun id => ?_) rfl
    exact List.getElem?_concat_length.symm
  · cases hsite.symm.trans h
    obtain ⟨o, ho, hne⟩ := hn i rfl
    have howner : n.ownerName (some i) = some o := ho
    have hadd : n.add e ⟨t, some i, .anonymous, none⟩ =
        ⟨(n.scan.registerAnonymous e o t).2,
          n.names ++ [(n.scan.registerAnonymous e o t).1]⟩ := by
      unfold add
      rw [howner]
      rfl
    unfold Scan.enter
    rw [hdecl, hadd]
    dsimp only
    rw [if_pos (beq_iff_eq.mpr hkind), howner, present?_of_ne_empty hne, hbody]
    refine Prod.ext (funext fun id => ?_) rfl
    by_cases hid : (id == body.id) = true
    · simp only [if_pos hid]
      exact List.getElem?_concat_length.symm
    · simp only [if_neg hid]
      exact (getElem?_mono (List.prefix_append _ _) ho).symm

/-- Recording the declarations of a tree is naming and recording its sites in turn. -/
theorem foldl_add_sites (e : Entry) (t : Tree) {owner : Option Nat} {n : Naming}
    (hn : n.Valid owner) (hplain : ∀ x ∈ sites e owner n.names.length t, x.HasPlainName) :
    ((sites e owner n.names.length t).foldl (add e) n).scan =
      scanTree e (n.ownerName owner) t n.scan := by
  refine forall_of_forest
    (P := fun t => ∀ (owner : Option Nat) (n : Naming), n.Valid owner →
      (∀ x ∈ sites e owner n.names.length t, x.HasPlainName) →
      ((sites e owner n.names.length t).foldl (add e) n).scan =
        scanTree e (n.ownerName owner) t n.scan)
    (Q := fun ts => ∀ (owners : Nat → Option Nat) (n : Naming), (∀ id, n.Valid (owners id)) →
      (∀ x ∈ sitesAll e owners n.names.length ts, x.HasPlainName) →
      ((sitesAll e owners n.names.length ts).foldl (add e) n).scan =
        scanTrees e (fun id => n.ownerName (owners id)) ts n.scan) ?_ ?_ ?_ t owner n hn hplain
  · exact fun _ _ _ _ => rfl
  · intro t ts iht ihts owners n hn hplain
    rw [sitesAll] at hplain ⊢
    obtain ⟨hfirst, hrest⟩ := List.forall_mem_append.mp hplain
    obtain ⟨hstay, hlength⟩ := names_foldl_add e (sites e (owners t.id) n.names.length t) n
    rw [List.foldl_append, scanTrees, ← iht _ _ (hn t.id) hfirst]
    rw [← hlength] at hrest ⊢
    rw [ihts owners _ (fun id => (hn id).mono hstay) hrest]
    congr 1
    exact funext fun id => (hn id).ownerName_eq hstay
  · intro t ih owner n hn hplain
    rw [sites_eq] at hplain ⊢
    have hscan : scanTree e (n.ownerName owner) t n.scan =
        scanTrees e (n.scan.enter e (n.ownerName owner) t).1 t.children
          (n.scan.enter e (n.ownerName owner) t).2 := by
      cases t
      rw [scanTree]
      rfl
    rw [hscan]
    cases hsite : e.site? owner t with
    | none =>
      rw [hsite] at hplain
      rw [enter_of_site?_none hn hsite]
      exact ih _ n (fun _ => hn) hplain
    | some r =>
      obtain ⟨x, inner⟩ := r
      rw [hsite] at hplain
      obtain ⟨hx, hchildren⟩ := List.forall_mem_cons.mp hplain
      obtain ⟨name, hname⟩ := n.names_add e x
      have hstay : n.names <+: (n.add e x).names := hname ▸ List.prefix_append _ _
      have hlength : (n.add e x).names.length = n.names.length + 1 := by
        rw [hname, List.length_append, List.length_singleton]
      have hvalid : ∀ id, (n.add e x).Valid (if inner id then some n.names.length else owner) := by
        intro id
        split
        · exact valid_add hx
        · exact hn.mono hstay
      rw [enter_of_site?_some hn hsite, List.foldl_cons]
      rw [← hlength] at hchildren ⊢
      exact ih _ _ hvalid hchildren

end Naming
end ServiceReach.Index

import ServiceReach.Proofs.Index.Sites
import ServiceReach.Proofs.Text.Space

/-
  Binary names. The name of a type is put together from the name of the nearest type around it and
  its simple name, or its number if it is anonymous. Where simple names are plain, a name can be
  taken apart again (`memberName_inj`), and numbers in one type differ. So two types of a file get
  the same name if and only if somewhere around them two types have the same simple name in the same
  type, be it in different methods or blocks of it. The second of two types with the same name is
  not recorded: a file declares all its types if and only if no type has two types of the same
  simple name in it (`Indexer.declares_all_iff`).
-/

namespace ServiceReach.Index

open Source Tree Scan
open scoped List

variable {e : Entry}

/-! ## Taking names apart -/

/-- What the names of all types of a file start with. -/
def Entry.packagePrefix (e : Entry) : String :=
  if e.header.package.isEmpty then "" else e.header.package ++ "."

theorem memberName_none (e : Entry) (s : String) : memberName e none s = e.packagePrefix ++ s := by
  unfold Entry.packagePrefix
  change inPackage e.header.package s = _
  unfold inPackage
  split
  · rw [String.empty_append]
  · rfl

theorem memberName_some {o : String} (ho : o ≠ "") (e : Entry) (s : String) :
    memberName e (some o) s = o ++ "$" ++ s := by
  unfold memberName
  rw [Naming.present?_of_ne_empty ho]

/-- What may stand behind the last `$` of a name. -/
def IsLabel (s : String) : Prop :=
  s ≠ "" ∧ '$' ∉ s.toList

theorem IsPlain.isLabel {s : String} (h : IsPlain s) : IsLabel s :=
  ⟨h.ne_empty, h.2⟩

theorem isDigit_of_mem_toString {k : Nat} {c : Char} (hc : c ∈ (toString k).toList) :
    c.isDigit = true := by
  rw [Nat.toString_eq_repr, Nat.toList_repr] at hc
  exact Nat.isDigit_of_mem_toDigits (by decide) (by decide) hc

theorem isLabel_toString (k : Nat) : IsLabel (toString k) := by
  refine ⟨?_, fun h => absurd (isDigit_of_mem_toString h) (by decide)⟩
  rw [Nat.toString_eq_repr]
  exact Nat.repr_ne_empty

theorem IsPlain.ne_toString {s : String} (h : IsPlain s) (k : Nat) : s ≠ toString k := by
  rintro rfl
  have hfirst := h.1
  cases hhead : (toString k).toList.head? with
  | none =>
    rw [hhead] at hfirst
    cases hfirst
  | some c =>
    have hdigit := isDigit_of_mem_toString (List.mem_of_mem_head? hhead)
    rw [hhead, Option.any_some, hdigit] at hfirst
    cases hfirst

theorem toString_inj {k k' : Nat} (h : toString k = toString k') : k = k' := by
  have hdigits := congrArg (fun s => Nat.ofDigitChars 10 s.toList 0) h
  simpa only [Nat.toString_eq_repr, Nat.toList_repr, Nat.ofDigitChars_ten_toDigits] using hdigits

theorem append_dollar_inj {o o' s s' : String} (hs : '$' ∉ s.toList) (hs' : '$' ∉ s'.toList)
    (h : o ++ "$" ++ s = o' ++ "$" ++ s') : o = o' ∧ s = s' := by
  -- Read backwards, the last `$` is the first one.
  have hchars : s.toList.reverse ++ '$' :: o.toList.reverse =
      s'.toList.reverse ++ '$' :: o'.toList.reverse := by
    have hsign : "$".toList = ['$'] := by decide
    have hreverse := congrArg (fun name => name.toList.reverse) h
    simpa only [String.toList_append, List.reverse_append, hsign, List.reverse_singleton,
      List.singleton_append] using hreverse
  have hcut := Text.append_cons_inj (fun h => hs (List.mem_reverse.mp h))
    (fun h => hs' (List.mem_reverse.mp h)) hchars
  exact ⟨String.toList_inj.mp (List.reverse_injective hcut.2),
    String.toList_inj.mp (List.reverse_injective hcut.1)⟩

/-- A name of a type around some types of the file. -/
def Entry.IsOwner (e : Entry) (o : String) : Prop :=
  o ≠ "" ∧ ∃ rest, o = e.packagePrefix ++ rest

/-- The owner and the last part of a name can be read off it. -/
theorem memberName_inj {owner owner' : Option String} (howner : ∀ o, owner = some o → e.IsOwner o)
    (howner' : ∀ o, owner' = some o → e.IsOwner o) {s s' : String} (hs : IsLabel s)
    (hs' : IsLabel s') (h : memberName e owner s = memberName e owner' s') :
    owner = owner' ∧ s = s' := by
  -- A label at the top of the file would have to hold the `$` of a name inside a type.
  have hmixed : ∀ {o l l' : String}, e.IsOwner o → IsLabel l →
      memberName e none l ≠ memberName e (some o) l' := by
    rintro o l l' ⟨hne, rest, rfl⟩ hl hsame
    rw [memberName_none, memberName_some hne, String.append_assoc, String.append_assoc,
      String.append_right_inj] at hsame
    refine hl.2 ?_
    rw [hsame, String.toList_append, String.toList_append]
    exact List.mem_append_right _ (List.mem_append_left _ (by decide))
  cases owner with
  | none =>
    cases owner' with
    | none =>
      rw [memberName_none, memberName_none, String.append_right_inj] at h
      exact ⟨rfl, h⟩
    | some o' => exact absurd h (hmixed (howner' o' rfl) hs)
  | some o =>
    cases owner' with
    | none => exact absurd h.symm (hmixed (howner o rfl) hs')
    | some o' =>
      rw [memberName_some (howner o rfl).1, memberName_some (howner' o' rfl).1] at h
      obtain ⟨rfl, rfl⟩ := append_dollar_inj hs.2 hs'.2 h
      exact ⟨rfl, rfl⟩

/-! ## Names and labels -/

namespace Naming

/-- The label is the simple name of the type, or a number that was given in the type around it. -/
structure Ends (n : Naming) (x : Site) (label : String) : Prop where
  simple : ∀ s, x.simple = some s → label = s
  number : x.simple = none → ∃ o k, n.ownerName x.owner = some o ∧ label = toString k ∧
    k < n.scan.nextAnonymous o

/-- The names are put together from owners and labels. -/
structure Sound (e : Entry) (done : List Site) (n : Naming) : Prop where
  length : n.names.length = done.length
  owners : ∀ name ∈ n.names, e.IsOwner name
  named : ∀ (i : Nat) x, done[i]? = some x → ∃ label, n.Ends x label ∧
    n.names[i]? = some (memberName e (n.ownerName x.owner) label)
  /-- No two anonymous classes have the same name. -/
  apart : ∀ (i j : Nat) x y, done[i]? = some x → done[j]? = some y → x.simple = none →
    y.simple = none → n.names[i]? = n.names[j]? → i = j

/-- All types are recorded if the names are distinct, and some are missing if they are not. -/
structure Kept (done : List Site) (n : Naming) : Prop where
  declared : ∀ name, name ∈ n.scan.catalog.names ↔ name ∈ n.names
  all : n.names.Nodup → n.scan.catalog.declarations.map Declaration.node = done.map Site.node
  fewer : ¬ n.names.Nodup → n.scan.catalog.declarations.length < done.length

variable {n : Naming} {x : Site} {done : List Site} {owner : Option Nat}

/-- Adding a type is registering it under its new name. -/
theorem add_registers (e : Entry) (n : Naming) (x : Site) :
    ∃ (s : Scan) (d : Declaration), s.catalog.declarations = n.scan.catalog.declarations ∧
      d.node = x.node ∧ (n.add e x).scan = s.register d ∧
      (n.add e x).names = n.names ++ [d.name] := by
  unfold add
  cases x.simple with
  | some simple => exact ⟨n.scan, ⟨_, x.node, e, x.kind, _⟩, rfl, rfl, rfl, rfl⟩
  | none =>
    exact ⟨n.scan.numbered e _ x.node, ⟨_, x.node, e, .anonymous, _⟩, rfl, rfl, rfl, rfl⟩

theorem Kept.add (h : Kept done n) (e : Entry) (x : Site) : Kept (done ++ [x]) (n.add e x) := by
  obtain ⟨s, d, hs, hnode, hscan, hnames⟩ := n.add_registers e x
  have hsame : s.catalog.names = n.scan.catalog.names := by
    unfold Catalog.names
    rw [hs]
  by_cases hmem : d.name ∈ n.names
  · have hdeclared : d.name ∈ s.catalog.names := hsame ▸ (h.declared d.name).mpr hmem
    have hcatalog : (n.add e x).scan.catalog = s.catalog := by
      rw [hscan, register_of_mem hdeclared]
    refine ⟨fun name => ?_, fun hnodup => ?_, fun _ => ?_⟩
    · rw [hcatalog, hsame, h.declared, hnames, List.mem_append, List.mem_singleton]
      exact ⟨Or.inl, fun hname => hname.elim id fun heq => heq ▸ hmem⟩
    · rw [hnames] at hnodup
      exact absurd hmem fun hm => (List.nodup_append.mp hnodup).2.2 _ hm _ List.mem_cons_self rfl
    · rw [hcatalog, hs, List.length_append, List.length_singleton]
      by_cases hnodup : n.names.Nodup
      · have hlength := congrArg List.length (h.all hnodup)
        rw [List.length_map, List.length_map] at hlength
        omega
      · have hfewer := h.fewer hnodup
        omega
  · have hnew : d.name ∉ s.catalog.names := fun hm => hmem ((h.declared d.name).mp (hsame ▸ hm))
    have hdeclarations : (n.add e x).scan.catalog.declarations =
        n.scan.catalog.declarations ++ [d] := by
      rw [hscan, register_of_not_mem hnew, hs]
    have hnodup : (n.add e x).names.Nodup ↔ n.names.Nodup := by
      rw [hnames]
      refine ⟨fun hall => (List.nodup_append.mp hall).1, fun hall => ?_⟩
      refine List.nodup_append.mpr ⟨hall, List.nodup_singleton _, ?_⟩
      intro a ha b hb hab
      rw [List.mem_singleton.mp hb] at hab
      exact hmem (hab ▸ ha)
    refine ⟨fun name => ?_, fun hall => ?_, fun hnot => ?_⟩
    · unfold Catalog.names
      rw [hdeclarations, hnames, List.map_append, List.mem_append, List.mem_append]
      exact or_congr (h.declared name) Iff.rfl
    · rw [hdeclarations, List.map_append, List.map_append, h.all (hnodup.mp hall),
        List.map_singleton, List.map_singleton, hnode]
    · have hfewer := h.fewer (mt hnodup.mpr hnot)
      rw [hdeclarations, List.length_append, List.length_append]
      exact Nat.add_lt_add_right hfewer 1

/-! ## Numbers of anonymous classes -/

theorem nextAnonymous_register (s : Scan) (d : Declaration) (o : String) :
    (s.register d).nextAnonymous o = s.nextAnonymous o := by
  by_cases hmem : d.name ∈ s.catalog.names
  · unfold nextAnonymous
    rw [register_of_mem hmem]
  · rw [register_of_not_mem hmem]
    rfl

theorem nextAnonymous_numbered (s : Scan) (e : Entry) (o : String) (node : Tree) (o' : String) :
    (s.numbered e o node).nextAnonymous o' =
      if o' = o then s.nextAnonymous o + 1 else s.nextAnonymous o' := by
  unfold nextAnonymous numbered
  dsimp only
  rw [lookup_setMember]
  by_cases ho : o' = o
  · rw [if_pos ho, if_pos ho]
    rfl
  · rw [if_neg ho, if_neg ho]

/-- The numbers of anonymous classes only go up. -/
theorem nextAnonymous_add_le (e : Entry) (n : Naming) (x : Site) (o : String) :
    n.scan.nextAnonymous o ≤ (n.add e x).scan.nextAnonymous o := by
  unfold add
  cases x.simple with
  | some simple => exact Nat.le_of_eq (nextAnonymous_register _ _ o).symm
  | none =>
    dsimp only
    rw [registerAnonymous_eq, nextAnonymous_register, nextAnonymous_numbered]
    split
    · rename_i ho
      rw [ho]
      exact Nat.le_succ _
    · exact Nat.le_refl _

/-! ## One more type -/

theorem ownerName_add (h : n.Sound e done) (howner : ∀ i, owner = some i → i < done.length)
    (x : Site) : (n.add e x).ownerName owner = n.ownerName owner := by
  obtain ⟨name, hname⟩ := n.names_add e x
  cases owner with
  | none => rfl
  | some i =>
    unfold ownerName
    rw [Option.bind_some, Option.bind_some, hname, List.getElem?_append_left]
    rw [h.length]
    exact howner i rfl

/-- A label of an earlier type stays a label. -/
theorem Ends.add {y : Site} {label : String} (h : n.Ends y label)
    (howner : (n.add e x).ownerName y.owner = n.ownerName y.owner) :
    (n.add e x).Ends y label := by
  refine ⟨h.simple, fun hsimple => ?_⟩
  obtain ⟨o, k, ho, hlabel, hk⟩ := h.number hsimple
  exact ⟨o, k, howner.trans ho, hlabel, Nat.lt_of_lt_of_le hk (nextAnonymous_add_le e n x o)⟩

/-- The new name is put together from its owner and a label; if that is a number, it was not given
    before. -/
theorem names_add_eq (hn : n.Valid x.owner) (hanonymous : x.simple = none → x.owner.isSome = true) :
    ∃ label, (n.add e x).names = n.names ++ [memberName e (n.ownerName x.owner) label] ∧
      (∀ s, x.simple = some s → label = s) ∧
      (x.simple = none → ∃ o, n.ownerName x.owner = some o ∧
        label = toString (n.scan.nextAnonymous o) ∧
        n.scan.nextAnonymous o < (n.add e x).scan.nextAnonymous o) := by
  unfold add
  cases hsimple : x.simple with
  | some s => exact ⟨s, rfl, fun s' hs' => Option.some.inj hs', fun h => by cases h⟩
  | none =>
    obtain ⟨i, hi⟩ := Option.isSome_iff_exists.mp (hanonymous hsimple)
    obtain ⟨o, ho, hne⟩ := hn i hi
    have howner : n.ownerName x.owner = some o := by
      rw [hi]
      exact ho
    refine ⟨toString (n.scan.nextAnonymous o), ?_, (fun s hs => by cases hs), fun _ =>
      ⟨o, howner, rfl, ?_⟩⟩
    · rw [howner, memberName_some hne]
      rfl
    · dsimp only
      rw [howner, registerAnonymous_eq, nextAnonymous_register, nextAnonymous_numbered]
      simp

theorem isLabel_of_ends {label : String} (hx : x.HasPlainName) (h : n.Ends x label) :
    IsLabel label := by
  cases hsimple : x.simple with
  | some s =>
    rw [h.simple s hsimple]
    exact (hx s hsimple).isLabel
  | none =>
    obtain ⟨o, k, _, hlabel, _⟩ := h.number hsimple
    rw [hlabel]
    exact isLabel_toString k

theorem isOwner_memberName {owner : Option String} (howner : ∀ o, owner = some o → e.IsOwner o)
    {label : String} (hlabel : IsLabel label) : e.IsOwner (memberName e owner label) := by
  refine ⟨memberName_ne_empty hlabel.1, ?_⟩
  cases owner with
  | none => exact ⟨label, memberName_none e label⟩
  | some o =>
    obtain ⟨hne, rest, hrest⟩ := howner o rfl
    refine ⟨rest ++ ("$" ++ label), ?_⟩
    rw [memberName_some hne, hrest, String.append_assoc, String.append_assoc]

theorem Sound.isOwner (h : n.Sound e done) {o : String} (ho : n.ownerName owner = some o) :
    e.IsOwner o := by
  obtain ⟨i, _, hi⟩ := Option.bind_eq_some_iff.mp ho
  exact h.owners o (List.mem_of_getElem? hi)

theorem Sound.valid (h : n.Sound e done) (howner : ∀ i, owner = some i → i < done.length) :
    n.Valid owner := by
  intro i hi
  have hlt : i < n.names.length := by
    rw [h.length]
    exact howner i hi
  exact ⟨n.names[i], List.getElem?_eq_getElem hlt, (h.owners _ (List.getElem_mem hlt)).1⟩

/-- An anonymous class gets a name that no anonymous class has. -/
theorem Sound.fresh (h : n.Sound e done) (hplain : ∀ y ∈ done, y.HasPlainName) {o : String}
    (ho : n.ownerName owner = some o) {i : Nat} {y : Site} (hy : done[i]? = some y)
    (hsimple : y.simple = none) :
    n.names[i]? ≠ some (memberName e (some o) (toString (n.scan.nextAnonymous o))) := by
  intro hsame
  obtain ⟨label, hends, hname⟩ := h.named i y hy
  have hlabel := isLabel_of_ends (hplain y (List.mem_of_getElem? hy)) hends
  obtain ⟨o', k, ho', hk, hlt⟩ := hends.number hsimple
  rw [ho', hk] at hname
  rw [hk] at hlabel
  have howner : ∀ {owner : Option Nat} {o : String}, n.ownerName owner = some o →
      ∀ o', some o = some o' → e.IsOwner o' := by
    rintro _ _ ho _ ⟨⟩
    exact h.isOwner ho
  have hname := Option.some.inj (hname.symm.trans hsame)
  obtain ⟨howners, hnumbers⟩ :=
    memberName_inj (howner ho') (howner ho) hlabel (isLabel_toString _) hname
  cases howners
  have hnumber := toString_inj hnumbers
  omega

/-- A place among one more types is an earlier one, which keeps its name, or that of the new type. -/
theorem Sound.place_add (h : n.Sound e done) {name : String}
    (hnames : (n.add e x).names = n.names ++ [name]) {i : Nat} {y : Site}
    (hy : (done ++ [x])[i]? = some y) :
    (done[i]? = some y ∧ (n.add e x).names[i]? = n.names[i]?) ∨
      (i = done.length ∧ y = x ∧ (n.add e x).names[i]? = some name) := by
  by_cases hi : i < done.length
  · rw [List.getElem?_append_left hi] at hy
    rw [hnames, List.getElem?_append_left (by rwa [h.length])]
    exact Or.inl ⟨hy, rfl⟩
  · have hlen := (List.getElem?_eq_some_iff.mp hy).1
    rw [List.length_append, List.length_singleton] at hlen
    have heq : i = done.length := by omega
    rw [heq, List.getElem?_concat_length] at hy
    refine Or.inr ⟨heq, (Option.some.inj hy).symm, ?_⟩
    rw [hnames, heq, ← h.length]
    exact List.getElem?_concat_length

theorem Sound.add (h : n.Sound e done) (howned : WellOwned 0 (done ++ [x]))
    (hplain : ∀ y ∈ done, y.HasPlainName) (hx : x.HasPlainName) :
    (n.add e x).Sound e (done ++ [x]) := by
  obtain ⟨howner, hanonymous⟩ := howned done.length x List.getElem?_concat_length
  rw [Nat.zero_add] at howner
  obtain ⟨label, hnames, hsimple, hnumber⟩ := names_add_eq (e := e) (h.valid howner) hanonymous
  have hkeep := ownerName_add h howner x
  have hends : (n.add e x).Ends x label := by
    refine ⟨hsimple, fun hnone => ?_⟩
    obtain ⟨o, ho, hlabel, hlt⟩ := hnumber hnone
    exact ⟨o, _, hkeep.trans ho, hlabel, hlt⟩
  have hfresh : ∀ {i : Nat} {y : Site}, done[i]? = some y → y.simple = none → x.simple = none →
      n.names[i]? ≠ some (memberName e (n.ownerName x.owner) label) := by
    intro i y hy hynone hxnone
    obtain ⟨o, ho, hlabel, _⟩ := hnumber hxnone
    rw [ho, hlabel]
    exact h.fresh hplain ho hy hynone
  constructor
  · rw [hnames, List.length_append, List.length_append, h.length]
    rfl
  · intro name hname
    rw [hnames, List.mem_append, List.mem_singleton] at hname
    rcases hname with hname | rfl
    · exact h.owners name hname
    · exact isOwner_memberName (fun o ho => h.isOwner ho) (isLabel_of_ends hx hends)
  · intro i y hy
    rcases h.place_add hnames hy with ⟨hold, hsame⟩ | ⟨_, rfl, hnew⟩
    · obtain ⟨label', hends', hname⟩ := h.named i y hold
      have hlt := (List.getElem?_eq_some_iff.mp hold).1
      have hkeep' : (n.add e x).ownerName y.owner = n.ownerName y.owner := by
        refine ownerName_add h (fun j hj => ?_) x
        have hj := (howned i y hy).1 j hj
        omega
      refine ⟨label', hends'.add hkeep', ?_⟩
      rw [hsame, hkeep', hname]
    · exact ⟨label, hends, by rw [hnew, hkeep]⟩
  · intro i j y z hy hz hynone hznone hsame
    rcases h.place_add hnames hy with ⟨hyold, hyname⟩ | ⟨hi, rfl, hynew⟩
    · rcases h.place_add hnames hz with ⟨hzold, hzname⟩ | ⟨_, rfl, hznew⟩
      · rw [hyname, hzname] at hsame
        exact h.apart i j y z hyold hzold hynone hznone hsame
      · rw [hyname, hznew] at hsame
        exact absurd hsame (hfresh hyold hynone hznone)
    · rcases h.place_add hnames hz with ⟨hzold, hzname⟩ | ⟨hj, _⟩
      · rw [hynew, hzname] at hsame
        exact absurd hsame.symm (hfresh hzold hznone hynone)
      · exact hi.trans hj.symm

end Naming

theorem WellOwned.of_append {xs ys : List Site} (h : WellOwned 0 (xs ++ ys)) : WellOwned 0 xs := by
  intro k x hk
  refine h k x ?_
  rw [List.getElem?_append_left (List.getElem?_eq_some_iff.mp hk).1]
  exact hk

/-- Naming all types in turn puts all names together from owners and labels. -/
theorem sound_foldl_add {xs : List Site} (howned : WellOwned 0 xs)
    (hplain : ∀ x ∈ xs, x.HasPlainName) (s : Scan) :
    (xs.foldl (Naming.add e) ⟨s, []⟩).Sound e xs := by
  induction xs using List.reverseRecOn with
  | nil =>
    exact ⟨rfl, (fun _ h => by cases h), (fun _ _ h => by cases h), fun _ _ _ _ h => by cases h⟩
  | append_singleton xs x ih =>
    obtain ⟨hxs, hx⟩ := List.forall_mem_append.mp hplain
    rw [List.foldl_append]
    exact (ih howned.of_append hxs).add howned hxs (hx x List.mem_cons_self)

theorem kept_foldl_add (e : Entry) (xs : List Site) {s : Scan}
    (hs : s.catalog.declarations = []) : (xs.foldl (Naming.add e) ⟨s, []⟩).Kept xs := by
  induction xs using List.reverseRecOn with
  | nil =>
    refine ⟨fun name => ?_, fun _ => ?_, fun h => absurd List.nodup_nil h⟩
    · unfold Catalog.names
      rw [List.foldl_nil, hs]
      exact Iff.rfl
    · rw [List.foldl_nil, hs]
      rfl
  | append_singleton xs x ih =>
    rw [List.foldl_append]
    exact ih.add e x

/-! ## Types of the same name -/

/-- No type, and not the top of the file, has two types of the same simple name in it, in whatever
    blocks or members they stand. -/
def Unambiguous (xs : List Site) : Prop :=
  xs.Pairwise fun x y => x.simple.isSome = true → x.owner = y.owner → x.simple ≠ y.simple

instance (xs : List Site) : Decidable (Unambiguous xs) :=
  inferInstanceAs (Decidable (xs.Pairwise _))

namespace Naming

variable {n : Naming} {xs : List Site} {i j : Nat} {x y : Site}

theorem Sound.getElem?_site (h : n.Sound e xs) {name : String} (hi : n.names[i]? = some name) :
    ∃ x, xs[i]? = some x := by
  have hlt := (List.getElem?_eq_some_iff.mp hi).1
  rw [h.length] at hlt
  exact ⟨xs[i], List.getElem?_eq_getElem hlt⟩

/-- Types with the same name and the same owner are one. -/
theorem Sound.eq_of_owner_eq (h : n.Sound e xs) (hplain : ∀ x ∈ xs, x.HasPlainName)
    (hun : Unambiguous xs) (hx : xs[i]? = some x) (hy : xs[j]? = some y)
    (hname : n.names[i]? = n.names[j]?) {label : String} (hxlabel : n.Ends x label)
    (hylabel : n.Ends y label) (howner : x.owner = y.owner) : i = j := by
  obtain ⟨hi, hxi⟩ := List.getElem?_eq_some_iff.mp hx
  obtain ⟨hj, hyj⟩ := List.getElem?_eq_some_iff.mp hy
  have hpairs := List.pairwise_iff_getElem.mp hun
  cases hxsimple : x.simple with
  | some s =>
    cases hysimple : y.simple with
    | some s' =>
      have hsimple : x.simple = y.simple := by
        rw [hxsimple, hysimple, ← hxlabel.simple s hxsimple, ← hylabel.simple s' hysimple]
      rcases Nat.lt_trichotomy i j with hlt | heq | hlt
      · have hne := hpairs i j hi hj hlt
        rw [hxi, hyj] at hne
        exact absurd hsimple (hne (by rw [hxsimple]; rfl) howner)
      · exact heq
      · have hne := hpairs j i hj hi hlt
        rw [hxi, hyj] at hne
        exact absurd hsimple.symm (hne (by rw [hysimple]; rfl) howner.symm)
    | none =>
      obtain ⟨_, k, _, hk, _⟩ := hylabel.number hysimple
      have hs := hplain x (List.mem_of_getElem? hx) s hxsimple
      exact absurd ((hxlabel.simple s hxsimple).symm.trans hk) (hs.ne_toString k)
  | none =>
    cases hysimple : y.simple with
    | some s =>
      obtain ⟨_, k, _, hk, _⟩ := hxlabel.number hxsimple
      have hs := hplain y (List.mem_of_getElem? hy) s hysimple
      exact absurd ((hylabel.simple s hysimple).symm.trans hk) (hs.ne_toString k)
    | none => exact h.apart i j x y hx hy hxsimple hysimple hname

/-- If no type has two types of the same simple name in it, no name is given twice. The types
    around two types of the same name have the same name too, and come earlier. -/
theorem Sound.index_unique (h : n.Sound e xs) (howned : WellOwned 0 xs)
    (hplain : ∀ x ∈ xs, x.HasPlainName) (hun : Unambiguous xs) {name : String}
    (hi : n.names[i]? = some name) (hj : n.names[j]? = some name) : i = j := by
  induction i using Nat.strongRecOn generalizing j name with
  | ind i ih =>
    obtain ⟨x, hx⟩ := h.getElem?_site hi
    obtain ⟨y, hy⟩ := h.getElem?_site hj
    obtain ⟨label, hxlabel, hxname⟩ := h.named i x hx
    obtain ⟨label', hylabel, hyname⟩ := h.named j y hy
    have hsame : memberName e (n.ownerName x.owner) label =
        memberName e (n.ownerName y.owner) label' := by
      rw [hi] at hxname
      rw [hj] at hyname
      exact (Option.some.inj hxname).symm.trans (Option.some.inj hyname)
    obtain ⟨howners, rfl⟩ := memberName_inj (fun o ho => h.isOwner ho) (fun o ho => h.isOwner ho)
      (isLabel_of_ends (hplain x (List.mem_of_getElem? hx)) hxlabel)
      (isLabel_of_ends (hplain y (List.mem_of_getElem? hy)) hylabel) hsame
    have hbefore : ∀ {k : Nat} {z : Site}, xs[k]? = some z → ∀ i, z.owner = some i → i < k := by
      intro k z hz i hi
      have hlt := (howned k z hz).1 i hi
      omega
    have hnamed : ∀ {k : Nat} {z : Site}, xs[k]? = some z → n.Valid z.owner := by
      intro k z hz
      refine h.valid fun i hi => ?_
      have hlt := hbefore hz i hi
      have hlen := (List.getElem?_eq_some_iff.mp hz).1
      omega
    refine h.eq_of_owner_eq hplain hun hx hy (hi.trans hj.symm) hxlabel hylabel ?_
    cases hxowner : x.owner with
    | none =>
      cases hyowner : y.owner with
      | none => rfl
      | some j' =>
        obtain ⟨o, ho, _⟩ := hnamed hy j' hyowner
        rw [hxowner, hyowner] at howners
        exact absurd (howners.trans ho) (by simp [ownerName])
    | some i' =>
      obtain ⟨o, ho, _⟩ := hnamed hx i' hxowner
      cases hyowner : y.owner with
      | none =>
        rw [hxowner, hyowner] at howners
        exact absurd (howners.symm.trans ho) (by simp [ownerName])
      | some j' =>
        rw [hxowner, hyowner] at howners
        exact congrArg some (ih i' (hbefore hx i' hxowner) ho (howners.symm.trans ho))

/-- Names are distinct if and only if simple names are, type by type. -/
theorem Sound.nodup_iff (h : n.Sound e xs) (howned : WellOwned 0 xs)
    (hplain : ∀ x ∈ xs, x.HasPlainName) : n.names.Nodup ↔ Unambiguous xs := by
  constructor
  · intro hnodup
    refine List.pairwise_iff_getElem.mpr fun i j hi hj hij hnamed howner hsimple => ?_
    obtain ⟨s, hs⟩ := Option.isSome_iff_exists.mp hnamed
    obtain ⟨label, hlabel, hname⟩ := h.named i _ (List.getElem?_eq_getElem hi)
    obtain ⟨label', hlabel', hname'⟩ := h.named j _ (List.getElem?_eq_getElem hj)
    have hsame : n.names[i]? = n.names[j]? := by
      rw [hname, hname', howner, hlabel.simple s hs, hlabel'.simple s (hsimple ▸ hs)]
    exact List.nodup_iff_getElem?_ne_getElem?.mp hnodup i j hij (by rwa [h.length]) hsame
  · intro hun
    refine List.nodup_iff_getElem?_ne_getElem?.mpr fun i j hij hj hsame => ?_
    have hname := List.getElem?_eq_getElem hj
    have heq := h.index_unique howned hplain hun (hsame.trans hname) hname
    omega

end Naming

/-! ## Files -/

/-- The sites of a file are the nodes that declare a type, each once. A file, indexed alone, declares
    all of them, each under a name of its own, if and only if no type has two types of the same
    simple name in it. Otherwise some are missing. -/
theorem Indexer.declares_all_iff (room : Nat) (f : File) (hplain : ∀ x ∈ f.sites, x.HasPlainName) :
    (f.sites.map Site.node <+~ f.tree.nodes ∧
        ∀ u, u ∈ f.sites.map Site.node ↔ DeclaresType false f.tree u) ∧
      ((ofFiles room [f]).catalog.declarations.map Declaration.node = f.sites.map Site.node ↔
        Unambiguous f.sites) ∧
      ((ofFiles room [f]).catalog.declarations.length = f.sites.length ↔ Unambiguous f.sites) := by
  have howned : WellOwned 0 f.sites := wellOwned_sites fun i hi => by cases hi
  let start : Scan := ⟨({ room } : Catalog).withEntry f.entry, Catalog.errorRecords f.entry f⟩
  have hvalid : (⟨start, []⟩ : Naming).Valid none := fun i hi => by cases hi
  have hscan : (f.sites.foldl (Naming.add f.entry) ⟨start, []⟩).scan.catalog =
      (ofFiles room [f]).catalog :=
    congrArg Scan.catalog (Naming.foldl_add_sites f.entry f.tree hvalid hplain)
  have hsound := sound_foldl_add (e := f.entry) howned hplain start
  have hkept := kept_foldl_add f.entry f.sites (s := start) rfl
  have hnames := hsound.nodup_iff howned hplain
  rw [← hscan]
  refine ⟨⟨sites_subperm, fun u => mem_sites_iff⟩,
    ⟨fun hall => ?_, fun hun => hkept.all (hnames.mpr hun)⟩, ⟨fun hlength => ?_, fun hun => ?_⟩⟩
  · by_contra hun
    have hfewer := hkept.fewer (mt hnames.mp hun)
    have hlength := congrArg List.length hall
    rw [List.length_map, List.length_map] at hlength
    omega
  · by_contra hun
    have hfewer := hkept.fewer (mt hnames.mp hun)
    omega
  · have hlength := congrArg List.length (hkept.all (hnames.mpr hun))
    rwa [List.length_map, List.length_map] at hlength

/-- A class whose name of one letter stands at a byte. -/
def classAt (id start stop name : Nat) (members : List Tree) : Tree :=
  .node ⟨.classDeclaration, true, id, start, stop, none⟩
    [.node ⟨.identifier, true, id + 1, name, name + 1, some .name⟩ [],
     .node ⟨.classBody, true, id + 2, name + 2, stop, some .body⟩ members]

/-- A method with the statements of its body. -/
def methodAt (id start stop body : Nat) (statements : List Tree) : Tree :=
  .node ⟨.methodDeclaration, true, id, start, stop, none⟩
    [.node ⟨.block, true, id + 1, body, stop, some .body⟩ statements]

/-- The file `class A { void f() { class L {} new B() { class L {} }; } }`. -/
def layeredFile : File where
  path := some "A.java"
  text := "class A { void f() { class L {} new B() { class L {} }; } }".toUTF8.data
  tree := .node ⟨.other "program", true, 0, 0, 59, none⟩
    [classAt 1 0 59 6
      [methodAt 4 10 57 19
        [classAt 6 21 31 27 [],
         .node ⟨.objectCreationExpression, true, 9, 32, 54, none⟩
          [.node ⟨.classBody, true, 10, 40, 54, none⟩ [classAt 11 42 52 48 []]]]]]

/-- A local class, and one of the same simple name in an anonymous class beside it. -/
theorem Indexer.declares_all_layered :
    (∀ x ∈ layeredFile.sites, x.HasPlainName) ∧ Unambiguous layeredFile.sites ∧
      (ofFiles 100 [layeredFile]).catalog.names = ["A", "A$L", "A$1", "A$1$L"] ∧
      (ofFiles 100 [layeredFile]).catalog.declarations.map Declaration.node =
        layeredFile.sites.map Site.node := by
  have hplain : ∀ x ∈ layeredFile.sites, x.HasPlainName := by decide +kernel
  have hun : Unambiguous layeredFile.sites := by decide +kernel
  exact ⟨hplain, hun, by decide +kernel, (declares_all_iff 100 layeredFile hplain).2.1.mpr hun⟩

/-- The file `class A { void f() { class L {} } void g() { class L {} } }`. -/
def twinFile : File where
  path := some "A.java"
  text := "class A { void f() { class L {} } void g() { class L {} } }".toUTF8.data
  tree := .node ⟨.other "program", true, 0, 0, 59, none⟩
    [classAt 1 0 59 6
      [methodAt 4 10 33 19 [classAt 6 21 31 27 []],
       methodAt 9 34 57 43 [classAt 11 45 55 51 []]]]

/-- The simple names of the types whose declarations are children of a node. -/
def directNames (e : Entry) (t : Tree) : List String :=
  (t.children.filter declaresByName).map fun c => e.textOf? (c.field? .name)

/-- Two methods of a class have a local class of the same name, each directly in a block of its own.
    The second one is not declared. -/
theorem Indexer.local_class_lost :
    (∀ t ∈ twinFile.tree.nodes, (directNames twinFile.entry t).Nodup) ∧
      twinFile.sites.map Site.simple = [some "A", some "L", some "L"] ∧
      (ofFiles 100 [twinFile]).catalog.names = ["A", "A$L"] := by
  refine ⟨?_, ?_, ?_⟩ <;> decide +kernel

end ServiceReach.Index

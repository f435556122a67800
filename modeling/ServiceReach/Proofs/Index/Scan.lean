import Mathlib.Logic.Relation
import ServiceReach.Index.Declaration

/-
  What scanning a tree does to a catalog. A scan only ever declares a new name or numbers an
  anonymous class of a declared type (`Grown`), so the declarations that were there stay first, no
  name is declared twice, and only declared types have counts. A scan does not see what was
  recorded before it, unless it meets a name of it: a scan in which no earlier name occurs does
  after another scan what it does alone (`scanTree_after`).
-/

namespace ServiceReach.Index

open Source Relation

/-- The names of the declared types. -/
def Catalog.names (c : Catalog) : List String :=
  c.declarations.map Declaration.name

/-- The type around a node is declared, if there is one. -/
def Catalog.Knows (c : Catalog) (owner : Option String) : Prop :=
  ∀ o, present? owner = some o → o ∈ c.names

/-- Only declared types have counts. -/
def Catalog.Counted (c : Catalog) : Prop :=
  ∀ k ∈ c.counts.map (·.1), k ∈ c.names

/-- What can happen to a catalog while the declarations of an entry are recorded. -/
inductive Catalog.Grown (e : Entry) (c : Catalog) : Catalog → Prop where
  | declare (d : Declaration) (hentry : d.entry = e) (hnew : d.name ∉ c.names) :
      Grown e c { c with declarations := c.declarations ++ [d] }
  | number (owner name : String) (start count : Nat) (howner : owner ∈ c.names) :
      Grown e c { c with
        counts := Json.setMember owner count c.counts
        anonymous := ((e.path, start), name) :: c.anonymous }

theorem mem_keys_setMember {α : Type} {key k : String} {value : α} {l : List (String × α)}
    (h : k ∈ (Json.setMember key value l).map (·.1)) : k = key ∨ k ∈ l.map (·.1) := by
  induction l with
  | nil => simpa [Json.setMember] using h
  | cons x l ih =>
    obtain ⟨k', v⟩ := x
    rw [Json.setMember] at h
    split at h
    · exact Or.inr h
    · rcases List.mem_cons.mp h with h | h
      · exact Or.inr (h ▸ List.mem_cons_self)
      · exact (ih h).imp_right (List.mem_cons_of_mem _)

theorem setMember_append {α : Type} {key : String} {value : α} {l : List (String × α)}
    (h : key ∉ l.map (·.1)) (r : List (String × α)) :
    Json.setMember key value (l ++ r) = l ++ Json.setMember key value r := by
  induction l with
  | nil => rfl
  | cons x l ih =>
    obtain ⟨k, v⟩ := x
    rw [List.map_cons, List.mem_cons, not_or] at h
    have hne : ¬ (k == key) = true := by
      simpa using fun hk => h.1 hk.symm
    rw [List.cons_append, Json.setMember, if_neg hne, ih h.2, List.cons_append]

theorem lookup_cons_ite {α : Type} (key : String) (value : α) (l : List (String × α)) (k : String) :
    ((key, value) :: l).lookup k = if k = key then some value else l.lookup k := by
  rw [List.lookup_cons]
  by_cases hk : k = key
  · rw [beq_iff_eq.mpr hk, if_pos hk]
  · rw [beq_eq_false_iff_ne.mpr hk, if_neg hk]

theorem lookup_setMember {α : Type} (key : String) (value : α) (l : List (String × α))
    (k : String) :
    (Json.setMember key value l).lookup k = if k = key then some value else l.lookup k := by
  induction l with
  | nil => rw [Json.setMember, lookup_cons_ite]
  | cons pair l ih =>
    obtain ⟨key', value'⟩ := pair
    rw [Json.setMember]
    by_cases hsame : key' = key
    · rw [if_pos (beq_iff_eq.mpr hsame), lookup_cons_ite, lookup_cons_ite, hsame]
      by_cases hk : k = key
      · simp only [if_pos hk]
      · simp only [if_neg hk]
    · rw [if_neg (mt beq_iff_eq.mp hsame), lookup_cons_ite, lookup_cons_ite, ih]
      by_cases hk : k = key'
      · have hne : k ≠ key := fun h => hsame (hk.symm.trans h)
        simp only [if_pos hk, if_neg hne]
      · simp only [if_neg hk]

theorem lookup_eq_none_of_not_mem_keys {α : Type} {key : String} {l : List (String × α)}
    (h : key ∉ l.map (·.1)) : l.lookup key = none := by
  rw [List.lookup_eq_none_iff]
  intro x hx
  simpa using fun hk : key = x.1 => h (hk ▸ List.mem_map_of_mem hx)

namespace Catalog.Grown

variable {e : Entry} {c c' : Catalog}

theorem declarations_kept (h : ReflTransGen (Grown e) c c') :
    c.declarations <+: c'.declarations := by
  induction h with
  | refl => exact List.prefix_rfl
  | tail _ hstep ih =>
    cases hstep with
    | declare d _ _ => exact ih.trans (List.prefix_append _ _)
    | number => exact ih

theorem room_eq (h : ReflTransGen (Grown e) c c') : c'.room = c.room := by
  induction h with
  | refl => rfl
  | tail _ hstep ih =>
    cases hstep with
    | declare => exact ih
    | number => exact ih

theorem names_mono (h : ReflTransGen (Grown e) c c') {n : String} (hn : n ∈ c.names) :
    n ∈ c'.names :=
  ((declarations_kept h).map Declaration.name).subset hn

theorem knows_mono (h : ReflTransGen (Grown e) c c') {owner : Option String}
    (ho : c.Knows owner) : c'.Knows owner :=
  fun o hp => names_mono h (ho o hp)

theorem nodup_names (h : ReflTransGen (Grown e) c c') (hc : c.names.Nodup) :
    c'.names.Nodup := by
  induction h with
  | refl => exact hc
  | tail _ hstep ih =>
    cases hstep with
    | declare d _ hnew =>
      unfold names at hnew ih ⊢
      rw [List.map_append, List.map_singleton]
      refine List.nodup_append.mpr ⟨ih, List.nodup_cons.mpr ⟨List.not_mem_nil, List.nodup_nil⟩, ?_⟩
      intro a ha b hb
      rw [List.mem_singleton.mp hb]
      exact fun hab => hnew (hab ▸ ha)
    | number => exact ih

theorem counted (h : ReflTransGen (Grown e) c c') (hc : c.Counted) : c'.Counted := by
  induction h with
  | refl => exact hc
  | tail _ hstep ih =>
    intro k hk
    cases hstep with
    | declare d hentry hnew => exact names_mono (.single (.declare d hentry hnew)) (ih k hk)
    | number owner _ _ _ howner =>
      rcases mem_keys_setMember hk with rfl | hk
      · exact howner
      · exact ih k hk

theorem entries_eq (h : ReflTransGen (Grown e) c c') : c'.entries = c.entries := by
  induction h with
  | refl => rfl
  | tail _ hstep ih =>
    cases hstep with
    | declare => exact ih
    | number => exact ih

theorem anonymous_eq_append (h : ReflTransGen (Grown e) c c') :
    ∃ new, c'.anonymous = new ++ c.anonymous ∧ ∀ x ∈ new, x.1.1 = e.path := by
  induction h with
  | refl => exact ⟨[], rfl, fun x hx => absurd hx List.not_mem_nil⟩
  | tail _ hstep ih =>
    obtain ⟨new, heq, hpath⟩ := ih
    cases hstep with
    | declare => exact ⟨new, heq, hpath⟩
    | number owner name start count _ =>
      refine ⟨((e.path, start), name) :: new, by rw [List.cons_append, ← heq], ?_⟩
      intro x hx
      rcases List.mem_cons.mp hx with rfl | hx
      · rfl
      · exact hpath x hx

end Catalog.Grown

/-! ## One node -/

namespace Scan

open Catalog

variable {e : Entry} {owner : Option String} {s : Scan} {d : Declaration}

theorem declares_iff {name : String} : s.declares name = true ↔ name ∈ s.catalog.names := by
  simp [declares, names]

theorem register_of_mem (h : d.name ∈ s.catalog.names) : (s.register d).catalog = s.catalog := by
  rw [register, if_pos (declares_iff.mpr h)]

theorem register_of_not_mem (h : d.name ∉ s.catalog.names) :
    s.register d = ⟨{ s.catalog with declarations := s.catalog.declarations ++ [d] }, s.log⟩ := by
  rw [register, if_neg (mt declares_iff.mp h)]

theorem register_grown (h : d.entry = e) :
    ReflTransGen (Grown e) s.catalog (s.register d).catalog := by
  by_cases hmem : d.name ∈ s.catalog.names
  · rw [register_of_mem hmem]
  · rw [register_of_not_mem hmem]
    exact .single (.declare d h hmem)

theorem anonymous_register : (s.register d).catalog.anonymous = s.catalog.anonymous := by
  by_cases hmem : d.name ∈ s.catalog.names
  · rw [register_of_mem hmem]
  · rw [register_of_not_mem hmem]

theorem mem_declarations_register {d' : Declaration}
    (h : d' ∈ (s.register d).catalog.declarations) : d' ∈ s.catalog.declarations ∨ d' = d := by
  by_cases hmem : d.name ∈ s.catalog.names
  · rw [register_of_mem hmem] at h
    exact Or.inl h
  · rw [register_of_not_mem hmem] at h
    exact (List.mem_append.mp h).imp_right List.mem_singleton.mp

theorem mem_names_register : d.name ∈ (s.register d).catalog.names := by
  by_cases hmem : d.name ∈ s.catalog.names
  · rwa [register_of_mem hmem]
  · rw [register_of_not_mem hmem]
    simp [names]

/-- The name that the next anonymous class of a type gets. -/
def anonymousName (s : Scan) (o : String) : String :=
  o ++ "$" ++ toString (s.nextAnonymous o)

/-- The scan in which an anonymous class has its name and is not declared yet. -/
def numbered (s : Scan) (e : Entry) (o : String) (node : Tree) : Scan where
  catalog := { s.catalog with
    counts := Json.setMember o (s.nextAnonymous o) s.catalog.counts
    anonymous := ((e.path, node.start), s.anonymousName o) :: s.catalog.anonymous }
  log := s.log

theorem registerAnonymous_eq (s : Scan) (e : Entry) (o : String) (node : Tree) :
    s.registerAnonymous e o node = (s.anonymousName o, (s.numbered e o node).register
      ⟨s.anonymousName o, node, e, .anonymous, some o⟩) := rfl

theorem registerAnonymous_grown {o : String} (h : o ∈ s.catalog.names) (node : Tree) :
    ReflTransGen (Grown e) s.catalog (s.registerAnonymous e o node).2.catalog := by
  have hnumber : Grown e s.catalog (s.numbered e o node).catalog :=
    .number o (s.anonymousName o) node.start (s.nextAnonymous o) h
  rw [registerAnonymous_eq]
  exact .head hnumber (register_grown rfl)

theorem mem_names_registerAnonymous {o : String} {node : Tree} :
    (s.registerAnonymous e o node).1 ∈ (s.registerAnonymous e o node).2.catalog.names := by
  rw [registerAnonymous_eq]
  exact mem_names_register

theorem anonymous_registerAnonymous {o : String} {node : Tree} :
    (s.registerAnonymous e o node).2.catalog.anonymous =
      ((e.path, node.start), s.anonymousName o) :: s.catalog.anonymous := by
  rw [registerAnonymous_eq, anonymous_register]
  rfl

/-- A node declares nothing, declares a type by name, or is an anonymous class of the type around
    it. Which of them does not depend on what was recorded before. -/
theorem enter_cases (e : Entry) (owner : Option String) (node : Tree) :
    (∀ s : Scan, s.enter e owner node = (fun _ => owner, s)) ∨
      (∃ d : Declaration,
        (d.entry = e ∧ d.enclosing = owner ∧ ∃ simple, d.name = memberName e owner simple) ∧
        ∀ s : Scan, s.enter e owner node = (fun _ => some d.name, s.register d)) ∨
      ∃ (o : String) (body : Nat), present? owner = some o ∧
        ∀ s : Scan, s.enter e owner node =
          (fun id => if id == body then some (s.registerAnonymous e o node).1 else some o,
            (s.registerAnonymous e o node).2) := by
  unfold enter
  cases DeclKind.ofNode? node.kind with
  | some kind =>
    cases node.field? .name with
    | none => exact Or.inl fun _ => rfl
    | some simple =>
      exact Or.inr (Or.inl ⟨⟨_, node, e, kind, owner⟩, ⟨rfl, rfl, _, rfl⟩, fun _ => rfl⟩)
  | none =>
    by_cases hkind : (node.kind == .objectCreationExpression) = true
    · simp only [if_pos hkind]
      cases howner : present? owner with
      | none => exact Or.inl fun _ => rfl
      | some o =>
        cases node.child? [.classBody] with
        | none => exact Or.inl fun _ => rfl
        | some body => exact Or.inr (Or.inr ⟨o, body.id, rfl, fun _ => rfl⟩)
    · simp only [if_neg hkind]
      exact Or.inl fun _ => trivial

theorem knows_some {c : Catalog} {name : String} (h : name ∈ c.names) : c.Knows (some name) := by
  intro o ho
  rwa [← Option.some.inj (Option.filter_eq_some_iff.mp ho).1]

theorem enter_grown (h : s.catalog.Knows owner) (node : Tree) :
    ReflTransGen (Grown e) s.catalog (s.enter e owner node).2.catalog ∧
      ∀ id, (s.enter e owner node).2.catalog.Knows ((s.enter e owner node).1 id) := by
  rcases enter_cases e owner node with henter | ⟨d, hdecl, henter⟩ | ⟨o, body, ho, henter⟩ <;>
    rw [henter]
  · exact ⟨.refl, fun _ => h⟩
  · exact ⟨register_grown hdecl.1, fun _ => knows_some mem_names_register⟩
  · have hgrown := registerAnonymous_grown (e := e) (h o ho) node
    refine ⟨hgrown, fun id => ?_⟩
    dsimp only
    split
    · exact knows_some mem_names_registerAnonymous
    · exact knows_some (Grown.names_mono hgrown (h o ho))

/-! ## One scan after another -/

/-- The scan, recorded after another one. -/
def after (s before : Scan) : Scan :=
  { catalog :=
      { room := before.catalog.room
        entries := before.catalog.entries ++ s.catalog.entries
        declarations := before.catalog.declarations ++ s.catalog.declarations
        anonymous := s.catalog.anonymous ++ before.catalog.anonymous
        counts := before.catalog.counts ++ s.catalog.counts
        packages := before.catalog.packages ++ s.catalog.packages }
    log := before.log ++ s.log }

variable {before : Scan}

theorem mem_names_after {n : String} :
    n ∈ (s.after before).catalog.names ↔ n ∈ before.catalog.names ∨ n ∈ s.catalog.names := by
  simp only [after, names, List.map_append, List.mem_append]

theorem empty_after (room : Nat) (before : Scan) :
    (⟨{ room }, []⟩ : Scan).after before = before := by
  simp only [after, List.append_nil, List.nil_append]

theorem register_after (h : d.name ∉ before.catalog.names) :
    (s.after before).register d = (s.register d).after before := by
  by_cases hmem : d.name ∈ s.catalog.names
  · rw [register, register, if_pos (declares_iff.mpr (mem_names_after.mpr (.inr hmem))),
      if_pos (declares_iff.mpr hmem)]
    simp only [after, List.append_assoc]
  · rw [register_of_not_mem hmem, register_of_not_mem (by simp [mem_names_after, h, hmem])]
    simp only [after, List.append_assoc]

theorem registerAnonymous_after {o : String} {node : Tree}
    (hcount : o ∉ before.catalog.counts.map (·.1))
    (hname : (s.registerAnonymous e o node).1 ∉ before.catalog.names) :
    (s.after before).registerAnonymous e o node =
      ((s.registerAnonymous e o node).1, (s.registerAnonymous e o node).2.after before) := by
  have hnext : (s.after before).nextAnonymous o = s.nextAnonymous o := by
    simp only [nextAnonymous, after, List.lookup_append,
      lookup_eq_none_of_not_mem_keys hcount, Option.none_or]
  have hnumbered : (s.after before).numbered e o node = (s.numbered e o node).after before := by
    simp only [numbered, anonymousName, hnext]
    simp only [after, setMember_append hcount, List.cons_append]
  rw [registerAnonymous_eq] at hname
  rw [registerAnonymous_eq, registerAnonymous_eq, hnumbered, ← register_after hname,
    anonymousName, hnext]
  rfl

theorem enter_after {node : Tree} (hcounted : before.catalog.Counted)
    (hknows : s.catalog.Knows owner)
    (hfresh : ∀ n ∈ (s.enter e owner node).2.catalog.names, n ∉ before.catalog.names) :
    (s.after before).enter e owner node =
      ((s.enter e owner node).1, (s.enter e owner node).2.after before) := by
  rcases enter_cases e owner node with henter | ⟨d, _, henter⟩ | ⟨o, body, ho, henter⟩ <;>
    simp only [henter] at hfresh ⊢
  · rw [register_after (hfresh _ mem_names_register)]
  · have hgrown := registerAnonymous_grown (e := e) (hknows o ho) node
    have hmem := Grown.names_mono hgrown (hknows o ho)
    have hcount : o ∉ before.catalog.counts.map (·.1) :=
      fun hkey => hfresh o hmem (hcounted o hkey)
    rw [registerAnonymous_after hcount (hfresh _ mem_names_registerAnonymous)]

end Scan

/-! ## Trees -/

open Catalog

mutual

/-- Scanning a tree only declares new names and numbers anonymous classes of declared types. -/
theorem scanTree_grown (e : Entry) (owner : Option String) :
    (t : Tree) → (s : Scan) → s.catalog.Knows owner →
      ReflTransGen (Grown e) s.catalog (scanTree e owner t s).catalog
  | .node label children, s, h => by
    obtain ⟨hgrown, hknows⟩ := Scan.enter_grown (e := e) h (.node label children)
    rw [scanTree]
    exact hgrown.trans (scanTrees_grown e _ children _ hknows)

theorem scanTrees_grown (e : Entry) (owners : Nat → Option String) :
    (ts : List Tree) → (s : Scan) → (∀ id, s.catalog.Knows (owners id)) →
      ReflTransGen (Grown e) s.catalog (scanTrees e owners ts s).catalog
  | [], s, _ => .refl
  | t :: rest, s, h => by
    have hgrown := scanTree_grown e (owners t.id) t s (h t.id)
    rw [scanTrees]
    exact hgrown.trans
      (scanTrees_grown e owners rest _ fun id => Grown.knows_mono hgrown (h id))

end

mutual

/-- A scan keeps whatever recording one node after the other keeps, if each node leaves the type
    around its children as the record needs it. -/
theorem scanTree_keeps {e : Entry} {P : Scan → Prop} {Q : Option String → Prop}
    (h : ∀ s owner node, P s → Q owner →
      P (s.enter e owner node).2 ∧ ∀ id, Q ((s.enter e owner node).1 id))
    {owner : Option String} (howner : Q owner) :
    (t : Tree) → (s : Scan) → P s → P (scanTree e owner t s)
  | .node label children, s, hs => by
    obtain ⟨hs', howners⟩ := h s owner (.node label children) hs howner
    rw [scanTree]
    exact scanTrees_keeps h howners children _ hs'

theorem scanTrees_keeps {e : Entry} {P : Scan → Prop} {Q : Option String → Prop}
    (h : ∀ s owner node, P s → Q owner →
      P (s.enter e owner node).2 ∧ ∀ id, Q ((s.enter e owner node).1 id))
    {owners : Nat → Option String} (howners : ∀ id, Q (owners id)) :
    (ts : List Tree) → (s : Scan) → P s → P (scanTrees e owners ts s)
  | [], _, hs => hs
  | t :: rest, s, hs => by
    rw [scanTrees]
    exact scanTrees_keeps h howners rest _ (scanTree_keeps h (howners t.id) t s hs)

end

mutual

/-- A scan that meets no earlier name does after an earlier scan what it does alone. -/
theorem scanTree_after {before : Scan} (hcounted : before.catalog.Counted) (e : Entry)
    (owner : Option String) :
    (t : Tree) → (s : Scan) → s.catalog.Knows owner →
      (∀ n ∈ (scanTree e owner t s).catalog.names, n ∉ before.catalog.names) →
      scanTree e owner t (s.after before) = (scanTree e owner t s).after before
  | .node label children, s, h, hfresh => by
    obtain ⟨_, hknows⟩ := Scan.enter_grown (e := e) h (.node label children)
    rw [scanTree] at hfresh ⊢
    have hgrown := scanTrees_grown e _ children _ hknows
    rw [Scan.enter_after hcounted h fun n hn => hfresh n (Grown.names_mono hgrown hn)]
    exact scanTrees_after hcounted e _ children _ hknows hfresh

theorem scanTrees_after {before : Scan} (hcounted : before.catalog.Counted) (e : Entry)
    (owners : Nat → Option String) :
    (ts : List Tree) → (s : Scan) → (∀ id, s.catalog.Knows (owners id)) →
      (∀ n ∈ (scanTrees e owners ts s).catalog.names, n ∉ before.catalog.names) →
      scanTrees e owners ts (s.after before) = (scanTrees e owners ts s).after before
  | [], s, _, _ => rfl
  | t :: rest, s, h, hfresh => by
    have hgrown := scanTree_grown e (owners t.id) t s (h t.id)
    have hknows := fun id => Grown.knows_mono hgrown (h id)
    rw [scanTrees] at hfresh ⊢
    have hrest := scanTrees_grown e owners rest _ hknows
    rw [scanTree_after hcounted e (owners t.id) t s (h t.id)
      fun n hn => hfresh n (Grown.names_mono hrest hn)]
    exact scanTrees_after hcounted e owners rest _ hknows hfresh

end

end ServiceReach.Index

import ServiceReach.Proofs.Index.BinaryNames
import ServiceReach.Proofs.Index.Enclosing

/-
  Names inside names. The name of a type is longer than that of the type around it, so going
  outwards from any scope comes to an end, within the bound that the scopes have (`walks_around`).
  Anonymous classes are named by counting. `readings` says of every node of a tree, in pre-order,
  which type is around it and which name it is given: its number is one more than that of the
  anonymous classes read before it, in this file or an earlier one, inside a type of the same name.
  A scan that counts as it goes gives these names (`scanTree_agrees`), and no name is given twice
  (`Sequenced.nodup_given`).
-/

namespace ServiceReach.Source.Tree

mutual

/-- All nodes of a tree, in pre-order. -/
def preorder : Tree → List Tree
  | .node label children => .node label children :: preorderAll children

/-- All nodes of several trees, in pre-order. -/
def preorderAll : List Tree → List Tree
  | [] => []
  | t :: rest => preorder t ++ preorderAll rest

end

end ServiceReach.Source.Tree

namespace ServiceReach.Index

open Source Tree

/-! ## Going outwards -/

/-- Going outwards from a scope, as long as there is a type around, meets these types. -/
inductive Scopes.Walks (s : Scopes) : Option String → List String → Prop where
  | stop {scope : Option String} (h : present? scope = none) : Walks s scope []
  | next {scope : Option String} {name : String} {names : List String}
      (h : present? scope = some name) (houter : Walks s (s.enclosing? name) names) :
      Walks s scope (name :: names)

/-- Going outwards from a scope until a simple name means something in it ends with this answer. -/
inductive Scopes.Finds (s : Scopes) (simple : String) : Option String → Option String → Prop where
  | stop {scope : Option String} (h : present? scope = none) : Finds s simple scope none
  | found {scope : Option String} {name type : String} (h : present? scope = some name)
      (hmember : s.memberOf? simple name = some type) : Finds s simple scope (some type)
  | next {scope : Option String} {name : String} {found : Option String}
      (h : present? scope = some name) (hmember : s.memberOf? simple name = none)
      (houter : Finds s simple (s.enclosing? name) found) : Finds s simple scope found

namespace Scopes.Walks

variable {s : Scopes} {scope : Option String} {names : List String}

theorem aroundFrom_eq (h : s.Walks scope names) {fuel : Nat} (hfuel : names.length ≤ fuel) :
    s.aroundFrom fuel scope = names := by
  induction h generalizing fuel with
  | stop hscope =>
    cases fuel with
    | zero => rfl
    | succ fuel => rw [aroundFrom, hscope]
  | next hscope _ ih =>
    cases fuel with
    | zero => cases hfuel
    | succ fuel =>
      rw [aroundFrom, hscope]
      exact congrArg _ (ih (Nat.le_of_succ_le_succ hfuel))

theorem finds (h : s.Walks scope names) (simple : String) :
    s.Finds simple scope (names.findSome? (s.memberOf? simple)) := by
  induction h with
  | stop hscope => exact .stop hscope
  | @next scope name names hscope _ ih =>
    rw [List.findSome?_cons]
    cases hmember : s.memberOf? simple name with
    | none => exact .next hscope hmember ih
    | some type => exact .found hscope hmember

end Scopes.Walks

namespace Catalog.Enclosed

variable {c : Catalog} {scope : Option String} {names : List String}

theorem length_enclosing_lt (h : c.Enclosed) {name o : String}
    (ho : present? (c.scopes.enclosing? name) = some o) : o.length < name.length := by
  obtain ⟨_, simple, rfl⟩ := h.enclosing_nests ho
  have hsign : "$".length = 1 := rfl
  rw [String.length_append, String.length_append, hsign]
  omega

/-- Going outwards comes to an end: names get shorter. -/
theorem exists_walks (h : c.Enclosed) (n : Nat) {scope : Option String}
    (hscope : ∀ name, present? scope = some name → name.length < n) :
    ∃ names, c.scopes.Walks scope names := by
  induction n generalizing scope with
  | zero =>
    cases hname : present? scope with
    | none => exact ⟨[], .stop hname⟩
    | some name => exact absurd (hscope name hname) (Nat.not_lt_zero _)
  | succ n ih =>
    cases hname : present? scope with
    | none => exact ⟨[], .stop hname⟩
    | some name =>
      have hlength := hscope name hname
      have houter : ∀ o, present? (c.scopes.enclosing? name) = some o → o.length < n := by
        intro o ho
        have := h.length_enclosing_lt ho
        omega
      obtain ⟨names, hnames⟩ := ih houter
      exact ⟨name :: names, .next hname hnames⟩

theorem length_lt_of_walks (h : c.Enclosed) {name : String}
    (hwalk : c.scopes.Walks (c.scopes.enclosing? name) names) :
    ∀ n ∈ names, n.length < name.length := by
  generalize hscope : c.scopes.enclosing? name = scope at hwalk
  induction hwalk generalizing name with
  | stop => exact fun n hn => absurd hn List.not_mem_nil
  | @next scope outer names houter _ ih =>
    have hshorter : outer.length < name.length := h.length_enclosing_lt (hscope ▸ houter)
    refine List.forall_mem_cons.mpr ⟨hshorter, fun n hn => ?_⟩
    exact Nat.lt_trans (ih rfl n hn) hshorter

theorem nodup_of_walks (h : c.Enclosed) (hwalk : c.scopes.Walks scope names) : names.Nodup := by
  induction hwalk with
  | stop => exact List.nodup_nil
  | next _ houter ih =>
    refine List.nodup_cons.mpr ⟨fun hmem => ?_, ih⟩
    exact Nat.lt_irrefl _ (h.length_lt_of_walks houter _ hmem)

theorem mem_names_of_walks (h : c.Enclosed) (hscope : c.Knows scope)
    (hwalk : c.scopes.Walks scope names) : names ⊆ c.names := by
  induction hwalk with
  | stop => exact List.nil_subset _
  | next hname _ ih =>
    refine List.cons_subset.mpr ⟨hscope _ hname, ih fun o ho => ?_⟩
    exact (h.enclosing_nests ho).1

/-- The scopes around a scope are all those met on the way outwards: the bound is never reached. -/
theorem walks_around (h : c.Enclosed) (scope : Option String) :
    c.scopes.Walks scope (c.scopes.around scope) := by
  have hbound : ∃ n, ∀ name, present? scope = some name → name.length < n := by
    cases present? scope with
    | none => exact ⟨0, fun name hname => by cases hname⟩
    | some name => exact ⟨name.length + 1, fun _ hname => by cases hname; exact Nat.lt_succ_self _⟩
  obtain ⟨n, hn⟩ := hbound
  obtain ⟨names, hwalk⟩ := h.exists_walks n hn
  have hlength : names.length ≤ c.scopes.entries.length + 1 := by
    cases hwalk with
    | stop => exact Nat.zero_le _
    | next _ houter =>
      -- Whatever the scope is, all types around it are declared.
      have hdeclared := h.mem_names_of_walks (fun o ho => (h.enclosing_nests ho).1) houter
      have hle := (List.subperm_of_subset (h.nodup_of_walks houter) hdeclared).length_le
      simp only [Catalog.names, List.length_map] at hle
      simp only [Catalog.scopes, List.length_map, List.length_cons]
      omega
  rw [Scopes.around, hwalk.aroundFrom_eq hlength]
  exact hwalk

end Catalog.Enclosed

/-! ## Readings -/

/-- What a scan makes of a node. -/
structure Reading where
  path : String
  node : Tree
  /-- The name of the type around the node. -/
  owner : Option String
  /-- The name that the node is given as an anonymous class. -/
  given : Option String

namespace Reading

/-- Whether the node is an anonymous class inside a type of this name. -/
def isClassOf (o : String) (r : Reading) : Bool :=
  r.owner == some o && r.given.isSome

/-- The number of anonymous classes inside types of this name. -/
def countOf (o : String) (past : List Reading) : Nat :=
  past.countP (isClassOf o)

/-- The names of the anonymous classes inside types of this name. -/
def namesOf (o : String) (past : List Reading) : List String :=
  (past.filter (isClassOf o)).filterMap given

/-- What is recorded about the node. -/
def record (r : Reading) : Option ((String × Nat) × String) :=
  r.given.map fun name => ((r.path, r.node.start), name)

/-- The name that a node is given inside a type, after what was read before. -/
def nameAfter (past : List Reading) (owner : Option String) (t : Tree) : Option String :=
  if createsClass t then
    (present? owner).map fun o => o ++ "$" ++ toString (countOf o past + 1)
  else none

end Reading

/-- Reads a node, after what was read before. -/
def Entry.read (e : Entry) (past : List Reading) (owner : Option String) (t : Tree) : Reading :=
  ⟨e.path, t, owner, Reading.nameAfter past owner t⟩

/-- The type around the children of a node, by their numbers: the type that the node declares, or
    the one around the node. Of an anonymous class only the body is inside it. -/
def Entry.ownerBelow (e : Entry) (r : Reading) (id : Nat) : Option String :=
  match r.given with
  | some name =>
    if (r.node.child? [.classBody]).map Tree.id == some id then some name else r.owner
  | none =>
    if declaresByName r.node then
      some (Scan.memberName e r.owner (e.textOf? (r.node.field? .name)))
    else r.owner

mutual

/-- The nodes of a tree as they are read, after what was read before. -/
def readings (e : Entry) (owner : Option String) (past : List Reading) : Tree → List Reading
  | .node label children =>
    let r := e.read past owner (.node label children)
    r :: readingsAll e (e.ownerBelow r) (past ++ [r]) children

/-- The nodes of sibling trees as they are read, each inside the type around it. -/
def readingsAll (e : Entry) (owners : Nat → Option String) (past : List Reading) :
    List Tree → List Reading
  | [] => []
  | t :: rest =>
    let new := readings e (owners t.id) past t
    new ++ readingsAll e owners (past ++ new) rest

end

/-- What is read after an entry. -/
def Entry.readAfter (past : List Reading) (e : Entry) : List Reading :=
  past ++ readings e none past e.tree

/-- The nodes of all entries as they are read. -/
def Catalog.readings (c : Catalog) : List Reading :=
  c.entries.foldl Entry.readAfter []

/-! ## Order -/

mutual

theorem nodes_readings (e : Entry) (owner : Option String) (past : List Reading) :
    (t : Tree) → (readings e owner past t).map (fun r => (r.path, r.node)) =
      t.preorder.map fun u => (e.path, u)
  | .node label children => by
    rw [readings, preorder, List.map_cons, List.map_cons,
      nodes_readingsAll e _ _ children]
    rfl

theorem nodes_readingsAll (e : Entry) (owners : Nat → Option String) (past : List Reading) :
    (ts : List Tree) → (readingsAll e owners past ts).map (fun r => (r.path, r.node)) =
      (preorderAll ts).map fun u => (e.path, u)
  | [] => rfl
  | t :: rest => by
    rw [readingsAll, preorderAll, List.map_append, List.map_append,
      nodes_readings e (owners t.id) past t, nodes_readingsAll e owners _ rest]

end

theorem nodes_foldl_readAfter (entries : List Entry) (past : List Reading) :
    (entries.foldl Entry.readAfter past).map (fun r => (r.path, r.node)) =
      past.map (fun r => (r.path, r.node)) ++
        entries.flatMap fun e => e.tree.preorder.map fun t => (e.path, t) := by
  induction entries generalizing past with
  | nil => exact (List.append_nil _).symm
  | cons e entries ih =>
    rw [List.foldl_cons, ih, Entry.readAfter, List.map_append, nodes_readings, List.flatMap_cons,
      List.append_assoc]

/-! ## Numbers -/

/-- Each node is given the name that comes next after those before it. -/
inductive Sequenced : List Reading → Prop where
  | nil : Sequenced []
  | concat {past : List Reading} {r : Reading} (h : Sequenced past)
      (hr : r.given = Reading.nameAfter past r.owner r.node) : Sequenced (past ++ [r])

mutual

theorem sequenced_readings (e : Entry) (owner : Option String) :
    (t : Tree) → (past : List Reading) → Sequenced past →
      Sequenced (past ++ readings e owner past t)
  | .node label children, past, h => by
    rw [readings, List.append_cons]
    exact sequenced_readingsAll e _ children _ (.concat h rfl)

theorem sequenced_readingsAll (e : Entry) (owners : Nat → Option String) :
    (ts : List Tree) → (past : List Reading) → Sequenced past →
      Sequenced (past ++ readingsAll e owners past ts)
  | [], past, h => by
    rw [readingsAll, List.append_nil]
    exact h
  | t :: rest, past, h => by
    rw [readingsAll, ← List.append_assoc]
    exact sequenced_readingsAll e owners rest _ (sequenced_readings e (owners t.id) t past h)

end

theorem sequenced_foldl_readAfter (entries : List Entry) {past : List Reading}
    (h : Sequenced past) : Sequenced (entries.foldl Entry.readAfter past) := by
  induction entries generalizing past with
  | nil => exact h
  | cons e entries ih => exact ih (sequenced_readings e none e.tree past h)

namespace Reading

variable {past : List Reading} {r : Reading} {o : String}

theorem countOf_concat : countOf o (past ++ [r]) =
    countOf o past + if isClassOf o r then 1 else 0 := by
  unfold countOf
  rw [List.countP_append, List.countP_singleton]

theorem namesOf_concat : namesOf o (past ++ [r]) =
    namesOf o past ++ if isClassOf o r then r.given.toList else [] := by
  unfold namesOf
  rw [List.filter_append, List.filterMap_append]
  congr 1
  by_cases hclass : isClassOf o r = true
  · rw [if_pos hclass, List.filter_singleton, hclass]
    cases hgiven : r.given with
    | none => simp [hgiven]
    | some name => simp [hgiven]
  · rw [if_neg hclass, List.filter_singleton, Bool.eq_false_iff.mpr hclass]
    rfl

/-- A name is given inside a type with a name, by the number that comes next. -/
theorem nameAfter_eq_some {owner : Option String} {t : Tree} {name : String}
    (h : nameAfter past owner t = some name) :
    ∃ o, owner = some o ∧ name = o ++ "$" ++ toString (countOf o past + 1) := by
  unfold nameAfter at h
  split at h
  · obtain ⟨o, ho, rfl⟩ := Option.map_eq_some_iff.mp h
    exact ⟨o, (Option.filter_eq_some_iff.mp ho).1, rfl⟩
  · cases h

end Reading

theorem Reading.nameAfter_of_declaration (past : List Reading) (owner : Option String) {t : Tree}
    {kind : DeclKind} (h : DeclKind.ofNode? t.kind = some kind) :
    nameAfter past owner t = none := by
  have hkind : (t.kind == .objectCreationExpression) = false := by
    refine beq_eq_false_iff_ne.mpr fun hkind => ?_
    rw [hkind] at h
    cases h
  rw [nameAfter, createsClass, hkind]
  rfl

namespace Entry

variable {past : List Reading} {owner : Option String} {t : Tree}

theorem ownerBelow_of_silent (e : Entry) (hgiven : Reading.nameAfter past owner t = none)
    (h : declaresByName t = false) : e.ownerBelow (e.read past owner t) = fun _ => owner := by
  funext id
  unfold ownerBelow read
  simp only [hgiven, h]
  rfl

theorem ownerBelow_of_named (e : Entry) (hgiven : Reading.nameAfter past owner t = none)
    (h : declaresByName t = true) : e.ownerBelow (e.read past owner t) =
      fun _ => some (Scan.memberName e owner (e.textOf? (t.field? .name))) := by
  funext id
  unfold ownerBelow read
  simp only [hgiven, h]
  rfl

theorem ownerBelow_of_class (e : Entry) {name : String} {body : Tree}
    (hgiven : Reading.nameAfter past owner t = some name)
    (hbody : t.child? [.classBody] = some body) :
    e.ownerBelow (e.read past owner t) =
      fun id => if id == body.id then some name else owner := by
  funext id
  unfold ownerBelow read
  simp only [hgiven, hbody, Option.map_some]
  by_cases hid : id = body.id
  · simp [hid]
  · simp [hid, Ne.symm hid]

end Entry

theorem numberedName_inj {o o' : String} {k k' : Nat}
    (h : o ++ "$" ++ toString k = o' ++ "$" ++ toString k') : o = o' ∧ k = k' := by
  obtain ⟨howner, hnumber⟩ :=
    append_dollar_inj (isLabel_toString k).2 (isLabel_toString k').2 h
  exact ⟨howner, toString_inj hnumber⟩

namespace Sequenced

open Reading

variable {past : List Reading}

/-- The anonymous classes inside types of a name are numbered 1, 2, 3 and so on. -/
theorem namesOf_eq (h : Sequenced past) (o : String) :
    namesOf o past = (List.range (countOf o past)).map fun i => o ++ "$" ++ toString (i + 1) := by
  induction h with
  | nil => rfl
  | @concat past r _ hr ih =>
    rw [namesOf_concat, countOf_concat, ih]
    by_cases hclass : isClassOf o r = true
    · obtain ⟨howner, hgiven⟩ := Bool.and_eq_true_iff.mp hclass
      obtain ⟨name, hname⟩ := Option.isSome_iff_exists.mp hgiven
      obtain ⟨o', ho', heq⟩ := nameAfter_eq_some (hr.symm.trans hname)
      have hsame : o' = o := Option.some.inj (ho'.symm.trans (beq_iff_eq.mp howner))
      rw [if_pos hclass, if_pos hclass, List.range_succ, List.map_append, hname, heq, hsame]
      rfl
    · rw [if_neg hclass, if_neg hclass, List.append_nil, Nat.add_zero]

theorem exists_owner (h : Sequenced past) {name : String} (hname : name ∈ past.filterMap given) :
    ∃ o, ∃ k : Nat, name = o ++ "$" ++ toString k ∧ name ∈ namesOf o past := by
  induction h with
  | nil => cases hname
  | @concat past r _ hr ih =>
    rw [List.filterMap_append, List.mem_append] at hname
    rcases hname with hname | hname
    · obtain ⟨o, k, heq, hmem⟩ := ih hname
      refine ⟨o, k, heq, ?_⟩
      rw [namesOf_concat]
      exact List.mem_append_left _ hmem
    · obtain ⟨r', hr', hgiven⟩ := List.mem_filterMap.mp hname
      rw [List.mem_singleton.mp hr'] at hgiven
      obtain ⟨o, ho, heq⟩ := nameAfter_eq_some (hr.symm.trans hgiven)
      have hclass : isClassOf o r = true := by
        rw [isClassOf, ho, hgiven]
        simp
      refine ⟨o, _, heq, ?_⟩
      rw [namesOf_concat, if_pos hclass, hgiven]
      exact List.mem_append_right _ List.mem_cons_self

/-- No name is given twice. -/
theorem nodup_given (h : Sequenced past) : (past.filterMap given).Nodup := by
  induction h with
  | nil => exact List.nodup_nil
  | @concat past r hpast hr ih =>
    rw [List.filterMap_append]
    cases hgiven : r.given with
    | none =>
      rw [List.filterMap_cons_none hgiven, List.filterMap_nil, List.append_nil]
      exact ih
    | some name =>
      rw [List.filterMap_cons_some hgiven, List.filterMap_nil]
      refine List.nodup_append.mpr ⟨ih, List.nodup_singleton name, fun a ha b hb hab => ?_⟩
      rw [List.mem_singleton] at hb
      subst hab hb
      -- An earlier class of this name would be one of the same type, with a smaller number.
      obtain ⟨o, ho, heq⟩ := nameAfter_eq_some (hr.symm.trans hgiven)
      obtain ⟨o', k, heq', hmem⟩ := hpast.exists_owner ha
      obtain ⟨rfl, _⟩ := numberedName_inj (heq.symm.trans heq')
      rw [hpast.namesOf_eq] at hmem
      obtain ⟨i, hi, heqi⟩ := List.mem_map.mp hmem
      have hnumber := (numberedName_inj (heqi.trans heq)).2
      have hlt := List.mem_range.mp hi
      omega

end Sequenced

/-! ## Scans -/

/-- A scan has recorded and counted what was read. -/
structure Scan.Agrees (s : Scan) (past : List Reading) : Prop where
  recorded : s.catalog.anonymous.reverse = past.filterMap Reading.record
  counted : ∀ o, s.nextAnonymous o = Reading.countOf o past + 1

namespace Scan.Agrees

open Reading

variable {s : Scan} {e : Entry} {past : List Reading} {owner : Option String} {t : Tree}

theorem concat_of_none (h : s.Agrees past) {r : Reading} (hr : r.given = none) :
    s.Agrees (past ++ [r]) := by
  constructor
  · have hrecord : r.record = none := by rw [record, hr]; rfl
    rw [List.filterMap_append, List.filterMap_cons_none hrecord, List.filterMap_nil,
      List.append_nil]
    exact h.recorded
  · intro o
    have hclass : isClassOf o r = false := by rw [isClassOf, hr]; exact Bool.and_false _
    rw [countOf_concat, hclass]
    exact h.counted o

theorem register (h : s.Agrees past) (d : Declaration) : (s.register d).Agrees past := by
  constructor
  · rw [anonymous_register]
    exact h.recorded
  · intro o
    rw [Naming.nextAnonymous_register]
    exact h.counted o

theorem numbered (h : s.Agrees past) {o : String} {r : Reading} (howner : r.owner = some o)
    (hpath : r.path = e.path) (hgiven : r.given = some (s.anonymousName o)) :
    (s.numbered e o r.node).Agrees (past ++ [r]) := by
  constructor
  · have hrecord : r.record = some ((e.path, r.node.start), s.anonymousName o) := by
      rw [record, hgiven, hpath]
      rfl
    rw [List.filterMap_append, List.filterMap_cons_some hrecord, List.filterMap_nil, ← h.recorded]
    exact List.reverse_cons
  · intro o'
    have hclass : isClassOf o' r = (o' == o) := by
      rw [isClassOf, howner, hgiven, Option.isSome_some, Bool.and_true]
      by_cases ho : o' = o
      · simp [ho]
      · simp [ho, Ne.symm ho]
    rw [Naming.nextAnonymous_numbered, countOf_concat, hclass]
    by_cases ho : o' = o
    · rw [if_pos ho, if_pos (beq_iff_eq.mpr ho), ho, h.counted o]
    · rw [if_neg ho, if_neg (mt beq_iff_eq.mp ho), h.counted o']

/-- A node that declares nothing leaves the type around and the scan as they are. -/
theorem silent (h : s.Agrees past) (e : Entry) (hgiven : nameAfter past owner t = none)
    (hsilent : declaresByName t = false) :
    (fun _ => owner) = e.ownerBelow (e.read past owner t) ∧
      s.Agrees (past ++ [e.read past owner t]) :=
  ⟨(e.ownerBelow_of_silent hgiven hsilent).symm, h.concat_of_none hgiven⟩

/-- One node: a scan goes on as the node is read. -/
theorem enter (h : s.Agrees past) (e : Entry) (owner : Option String) (t : Tree) :
    (s.enter e owner t).1 = e.ownerBelow (e.read past owner t) ∧
      (s.enter e owner t).2.Agrees (past ++ [e.read past owner t]) := by
  unfold Scan.enter
  cases hdecl : DeclKind.ofNode? t.kind with
  | some kind =>
    have hgiven := nameAfter_of_declaration past owner hdecl
    cases hname : t.field? .name with
    | none =>
      have hsilent : declaresByName t = false := by
        rw [declaresByName, hname]
        exact Bool.and_false _
      exact h.silent e hgiven hsilent
    | some name =>
      have hdeclares : declaresByName t = true := by
        rw [declaresByName, hdecl, hname]
        rfl
      refine ⟨?_, (h.concat_of_none hgiven).register _⟩
      rw [e.ownerBelow_of_named hgiven hdeclares, hname]
      rfl
  | none =>
    have hsilent : declaresByName t = false := by
      rw [declaresByName, hdecl]
      rfl
    -- Only an object creation with a body, inside a type, is an anonymous class.
    by_cases hkind : (t.kind == .objectCreationExpression) = true
    · rw [if_pos hkind]
      cases ho : present? owner with
      | none =>
        have hgiven : nameAfter past owner t = none := by
          rw [nameAfter, ho]
          exact ite_self none
        exact h.silent e hgiven hsilent
      | some o =>
        cases hbody : t.child? [.classBody] with
        | none =>
          have hgiven : nameAfter past owner t = none := by
            rw [nameAfter, createsClass, hbody, hkind]
            rfl
          exact h.silent e hgiven hsilent
        | some body =>
          have howner : owner = some o := (Option.filter_eq_some_iff.mp ho).1
          have hgiven : nameAfter past owner t = some (s.anonymousName o) := by
            rw [nameAfter, createsClass, hbody, hkind, ho, anonymousName, h.counted o]
            rfl
          refine ⟨?_, (h.numbered (e := e) (r := e.read past owner t) howner rfl hgiven).register _⟩
          rw [e.ownerBelow_of_class hgiven hbody, howner]
          rfl
    · rw [if_neg hkind]
      have hgiven : nameAfter past owner t = none := by
        rw [nameAfter, createsClass, Bool.eq_false_iff.mpr hkind]
        rfl
      exact h.silent e hgiven hsilent

end Scan.Agrees

mutual

/-- A scan gives the names that `readings` says. -/
theorem scanTree_agrees (e : Entry) (owner : Option String) :
    (t : Tree) → (s : Scan) → (past : List Reading) → s.Agrees past →
      (scanTree e owner t s).Agrees (past ++ readings e owner past t)
  | .node label children, s, past, h => by
    obtain ⟨howners, hagrees⟩ := h.enter e owner (.node label children)
    rw [scanTree, readings, List.append_cons]
    dsimp only
    rw [howners]
    exact scanTrees_agrees e _ children _ _ hagrees

theorem scanTrees_agrees (e : Entry) (owners : Nat → Option String) :
    (ts : List Tree) → (s : Scan) → (past : List Reading) → s.Agrees past →
      (scanTrees e owners ts s).Agrees (past ++ readingsAll e owners past ts)
  | [], s, past, h => by
    rw [scanTrees, readingsAll, List.append_nil]
    exact h
  | t :: rest, s, past, h => by
    rw [scanTrees, readingsAll, ← List.append_assoc]
    exact scanTrees_agrees e owners rest _ _ (scanTree_agrees e (owners t.id) t s past h)

end

/-! ## Files -/

namespace Indexer

theorem entries_concat (room : Nat) (files : List File) (f : File) :
    (ofFiles room (files ++ [f])).catalog.entries =
      (ofFiles room files).catalog.entries ++ [(ofFiles room files).catalog.entryOf f] := by
  rw [ofFiles_concat]
  exact Catalog.Grown.entries_eq (Catalog.add_grown _ f)

theorem trees_ofFiles (room : Nat) (files : List File) :
    (ofFiles room files).catalog.entries.map Entry.tree = files.map File.tree := by
  induction files using List.reverseRecOn with
  | nil => rfl
  | append_singleton files f ih =>
    rw [entries_concat, List.map_append, List.map_append, ih]
    rfl

theorem agrees_ofFiles (room : Nat) (files : List File) :
    Scan.Agrees ⟨(ofFiles room files).catalog, []⟩ (ofFiles room files).catalog.readings := by
  induction files using List.reverseRecOn with
  | nil => exact ⟨rfl, fun _ => rfl⟩
  | append_singleton files f ih =>
    have hread : (ofFiles room (files ++ [f])).catalog.readings =
        Entry.readAfter (ofFiles room files).catalog.readings
          ((ofFiles room files).catalog.entryOf f) := by
      rw [Catalog.readings, entries_concat, List.foldl_append]
      rfl
    have hscan := scanTree_agrees ((ofFiles room files).catalog.entryOf f) none f.tree
      ⟨(ofFiles room files).catalog.withEntry ((ofFiles room files).catalog.entryOf f),
        Catalog.errorRecords ((ofFiles room files).catalog.entryOf f) f⟩ _ ⟨ih.recorded, ih.counted⟩
    rw [hread, ofFiles_concat]
    exact ⟨hscan.recorded, hscan.counted⟩

end Indexer

/-- The anonymous classes of a catalog have the names that counting them gives. -/
structure Catalog.NumbersClasses (c : Catalog) : Prop where
  /-- Nodes are read file by file, and within a file in pre-order. -/
  order : c.readings.map (fun r => (r.path, r.node)) =
    c.entries.flatMap fun e => e.tree.preorder.map fun t => (e.path, t)
  /-- What the catalog records are the names that nodes are given, in this order. -/
  recorded : c.anonymous.reverse = c.readings.filterMap Reading.record
  /-- Inside types of one name they are numbered from 1. -/
  numbered : ∀ o, Reading.namesOf o c.readings =
    (List.range (Reading.countOf o c.readings)).map fun i => o ++ "$" ++ toString (i + 1)
  /-- No two nodes are given the same name. -/
  distinct : (c.readings.filterMap Reading.given).Nodup

/-- Whatever files are indexed, a type inside another one has a name that extends the name of a
    declared type. So going outwards comes to an end from every scope, with or without a name to
    look for. Anonymous classes are numbered inside the type around them in the order in which they
    are read, and no two of them have the same name. -/
theorem Indexer.nested_names (room : Nat) (files : List File) :
    let c := (ofFiles room files).catalog
    (∀ d ∈ c.declarations, c.Nests d) ∧
      (∀ scope, c.scopes.Walks scope (c.scopes.around scope)) ∧
      (∀ scope simple, c.scopes.Finds simple scope
        ((c.scopes.around scope).findSome? (c.scopes.memberOf? simple))) ∧
      c.entries.map Entry.tree = files.map File.tree ∧ c.NumbersClasses := by
  have henclosed := enclosed_ofFiles room files
  have hsequenced := sequenced_foldl_readAfter (ofFiles room files).catalog.entries .nil
  refine ⟨henclosed.nests, henclosed.walks_around,
    fun scope simple => (henclosed.walks_around scope).finds simple, trees_ofFiles room files, ?_⟩
  exact ⟨nodes_foldl_readAfter _ [], (agrees_ofFiles room files).recorded, hsequenced.namesOf_eq,
    hsequenced.nodup_given⟩

/-- The file `class A { B f = new B() { }; }`. -/
def heldFile : File where
  path := some "A.java"
  text := "class A { B f = new B() { }; }".toUTF8.data
  tree := .node ⟨.other "program", true, 0, 0, 30, none⟩
    [.node ⟨.classDeclaration, true, 1, 0, 30, none⟩
      [.node ⟨.identifier, true, 2, 6, 7, some .name⟩ [],
       .node ⟨.classBody, true, 3, 8, 30, some .body⟩
        [.node ⟨.fieldDeclaration, true, 4, 10, 28, none⟩
          [.node ⟨.objectCreationExpression, true, 5, 16, 27, none⟩
            [.node ⟨.classBody, true, 6, 24, 27, none⟩ []]]]]]

/-- A file that is indexed twice declares its types once, and its anonymous classes are numbered
    on. -/
example : (Indexer.ofFiles 100 [heldFile, heldFile]).catalog.names = ["A", "A$1", "A$2"] ∧
    (Indexer.ofFiles 100 [heldFile, heldFile]).catalog.readings.filterMap Reading.given =
      ["A$1", "A$2"] := by
  decide +kernel

end ServiceReach.Index

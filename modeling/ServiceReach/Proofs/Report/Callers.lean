import ServiceReach.Proofs.Analysis
import ServiceReach.Proofs.Command.Outputs
import ServiceReach.Proofs.Text.Lines

/-
  What the text of a call graph says. The calls between application methods are grouped by the
  caller (`grouped_groups`): every caller has one group, every callee stands in it once, and nothing
  else does. A group is a block of lines that ends in a blank line, and a text of such blocks is
  read in one way only. In an indexed program every call names the method it stands in, so what is
  read are the calls of the reached application methods that lead to application methods.
-/

namespace ServiceReach

/-! ## Groups -/

namespace CallGraph

variable {calls : List (String × String)} {groups : List Group} {caller callee : String}

theorem callers_addCallee (caller callee : String) (groups : List Group) :
    (addCallee caller callee groups).map Group.caller =
      if caller ∈ groups.map Group.caller then groups.map Group.caller
      else groups.map Group.caller ++ [caller] := by
  induction groups with
  | nil => rfl
  | cons group groups ih =>
    by_cases hcaller : group.caller = caller
    · simp [addCallee, hcaller]
    · rw [addCallee, if_neg (by simpa using hcaller), List.map_cons, ih, List.map_cons]
      by_cases hrest : caller ∈ groups.map Group.caller
      · rw [if_pos hrest, if_pos (List.mem_cons_of_mem _ hrest)]
      · rw [if_neg hrest, if_neg]
        · rfl
        · rw [List.mem_cons, not_or]
          exact ⟨Ne.symm hcaller, hrest⟩

theorem nodup_concat {names : List String} {name : String} (h : names.Nodup) (hnew : name ∉ names) :
    (names ++ [name]).Nodup := by
  rw [← List.concat_eq_append]
  exact h.concat hnew

/-- The callees are not empty, and each is there once. -/
def Group.Proper (group : Group) : Prop :=
  group.callees ≠ [] ∧ group.callees.Nodup

theorem proper_addCallee (h : ∀ group ∈ groups, group.Proper) :
    ∀ group ∈ addCallee caller callee groups, group.Proper := by
  induction groups with
  | nil => simp [addCallee, Group.Proper]
  | cons group groups ih =>
    rw [List.forall_mem_cons] at h
    rw [addCallee]
    split
    case isTrue =>
      refine List.forall_mem_cons.mpr ⟨?_, h.2⟩
      unfold Group.Proper
      dsimp only
      split
      case isTrue => exact h.1
      case isFalse hnew =>
        exact ⟨List.append_ne_nil_of_left_ne_nil h.1.1 _, nodup_concat h.1.2 (by simpa using hnew)⟩
    case isFalse => exact List.forall_mem_cons.mpr ⟨h.1, ih h.2⟩

/-- A callee stands in the group of a caller. -/
def Lists (groups : List Group) (caller callee : String) : Prop :=
  ∃ group ∈ groups, group.caller = caller ∧ callee ∈ group.callees

theorem lists_cons {group : Group} {c t : String} :
    Lists (group :: groups) c t ↔ (group.caller = c ∧ t ∈ group.callees) ∨ Lists groups c t := by
  simp [Lists]

theorem lists_addCallee {c t : String} :
    Lists (addCallee caller callee groups) c t ↔ Lists groups c t ∨ (c = caller ∧ t = callee) := by
  induction groups with
  | nil => simp [addCallee, Lists, eq_comm]
  | cons group groups ih =>
    rw [addCallee]
    split
    case isTrue hcaller =>
      have hcaller : group.caller = caller := by simpa using hcaller
      have hadded : t ∈ (if group.callees.contains callee then group.callees
          else group.callees ++ [callee]) ↔ t ∈ group.callees ∨ t = callee := by
        split
        case isTrue hthere =>
          have hthere : callee ∈ group.callees := by simpa using hthere
          exact ⟨Or.inl, fun h => h.elim id fun h => h ▸ hthere⟩
        case isFalse => rw [List.mem_append, List.mem_singleton]
      rw [lists_cons, lists_cons, hadded, hcaller, and_or_left, or_right_comm, @eq_comm _ caller c]
    case isFalse => rw [lists_cons, lists_cons, ih, or_assoc]

/-- The groups hold the calls: one group for each caller, with each of its callees once. -/
structure Grouped (calls : List (String × String)) (groups : List Group) : Prop where
  callers : (groups.map Group.caller).Nodup
  callees : ∀ group ∈ groups, group.Proper
  lists : ∀ c t, Lists groups c t ↔ (c, t) ∈ calls

theorem grouped_nil : Grouped [] [] :=
  ⟨List.nodup_nil, fun _ h => absurd h List.not_mem_nil, by simp [Lists]⟩

theorem Grouped.add (h : Grouped calls groups) (caller callee : String) :
    Grouped (calls ++ [(caller, callee)]) (addCallee caller callee groups) where
  callers := by
    rw [callers_addCallee]
    split
    case isTrue => exact h.callers
    case isFalse hnew => exact nodup_concat h.callers hnew
  callees := proper_addCallee h.callees
  lists := by
    intro c t
    rw [lists_addCallee, h.lists, List.mem_append, List.mem_singleton, Prod.mk.injEq]

/-- The caller of a group and all of its callees are those of calls. -/
theorem Grouped.forall_mem (h : Grouped calls groups) {group : Group} (hgroup : group ∈ groups) :
    (∃ t, (group.caller, t) ∈ calls) ∧ ∀ t ∈ group.callees, (group.caller, t) ∈ calls := by
  have hcalls : ∀ t ∈ group.callees, (group.caller, t) ∈ calls :=
    fun t ht => (h.lists _ _).mp ⟨group, hgroup, rfl, ht⟩
  obtain ⟨t, ht⟩ := List.exists_mem_of_ne_nil _ (h.callees group hgroup).1
  exact ⟨⟨t, hcalls t ht⟩, hcalls⟩

theorem grouped_groups (g : CallGraph) (p : Program) :
    Grouped (g.applicationCalls p) (g.groups p) := by
  have hfold : ∀ calls done groups, Grouped done groups → Grouped (done ++ calls)
      (calls.foldl (fun groups call => addCallee call.1 call.2 groups) groups) := by
    intro calls
    induction calls with
    | nil =>
      intro done groups h
      rwa [List.append_nil]
    | cons call calls ih =>
      intro done groups h
      have hrest := ih _ _ (h.add call.1 call.2)
      rwa [List.append_assoc] at hrest
  exact hfold _ [] [] grouped_nil

/-! ## Blocks of lines -/

namespace Group

/-- The lines of a group up to the blank one. -/
def block (group : Group) : List String :=
  ("CALLER: " ++ group.caller) :: group.callees.map ("    -> " ++ ·)

/-- The group that a block of lines is about. -/
def ofBlock? : List String → Option Group
  | header :: callees =>
    (Text.after? "CALLER: " header).bind fun caller =>
      (callees.mapM (Text.after? "    -> ")).map fun callees => ⟨caller, callees⟩
  | [] => none

theorem ofBlock?_eq_some_iff (lines : List String) (group : Group) :
    ofBlock? lines = some group ↔ lines = group.block := by
  obtain ⟨caller, callees⟩ := group
  unfold block
  cases lines with
  | nil => simp [ofBlock?]
  | cons header rest =>
    simp only [ofBlock?, Option.bind_eq_some_iff, Option.map_eq_some_iff, Text.after?_eq_some_iff,
      Text.mapM_eq_some_iff fun _ _ => Text.after?_eq_some_iff, Group.mk.injEq, List.cons.injEq]
    constructor
    · rintro ⟨_, rfl, _, rfl, rfl, rfl⟩
      exact ⟨rfl, rfl⟩
    · rintro ⟨rfl, rfl⟩
      exact ⟨_, rfl, _, rfl, rfl, rfl⟩

theorem blank_not_mem_block (group : Group) : "" ∉ group.block := by
  simp [block]

/-- All signatures are one line. -/
def OneLine (group : Group) : Prop :=
  Text.OneLine group.caller ∧ ∀ callee ∈ group.callees, Text.OneLine callee

theorem oneLine_block {group : Group} :
    (∀ line ∈ group.block, Text.OneLine line) ↔ group.OneLine := by
  have hconst : Text.OneLine "CALLER: " ∧ Text.OneLine "    -> " := by decide
  simp [block, OneLine, Text.oneLine_append, hconst]

/-- The groups that a text is about. -/
def read? (text : String) : Option (List Group) :=
  Text.readBlocks ofBlock? text

/-- A text is about groups of one-line signatures in one way only. -/
theorem read?_eq_some_iff {text : String} {groups : List Group} :
    read? text = some groups ↔
      (∀ group ∈ groups, group.OneLine) ∧ text = Text.writeBlocks block groups := by
  unfold read?
  rw [Text.readBlocks_eq_some_iff ofBlock?_eq_some_iff blank_not_mem_block]
  simp only [oneLine_block]

end Group

theorem unlines_lines (groups : List Group) :
    Text.unlines (groups.flatMap Group.lines) = Text.writeBlocks Group.block groups := by
  rw [Text.writeBlocks, Text.ended, List.flatMap_map]
  rfl

end CallGraph

/-! ## Application methods -/

namespace Program

variable {p : Program} {entries : List Method}

/-- The type that declares a method is one of the application. -/
def OfApplication (p : Program) (m : Method) : Prop :=
  ∃ d, p.get? (some m.owner) = some d ∧ m ∈ d.methods ∧ d.isApplication = true

instance (p : Program) (m : Method) : Decidable (p.OfApplication m) :=
  decidable_of_iff (∃ d ∈ (p.get? (some m.owner)).toList, m ∈ d.methods ∧ d.isApplication = true)
    (by simp [OfApplication])

/-- Every method names the type that declares it. -/
def NamesOwners (p : Program) : Prop :=
  ∀ t ∈ p.types, ∀ m ∈ t.methods, m.owner = t.name

theorem NamesOwners.isApplication_iff (h : p.NamesOwners) {m : Method} (hm : m ∈ p.methods) :
    p.isApplication (some m.owner) = true ↔ p.OfApplication m := by
  obtain ⟨t, ht, hm⟩ := List.mem_flatMap.mp hm
  unfold isApplication OfApplication
  cases hget : p.get? (some m.owner) with
  | none => simp
  | some d =>
    -- the type of that name is the one that lists the method
    have hname : d ∈ p.types ∧ d.name = m.owner := by
      obtain ⟨name, hpresent, hfind⟩ := Option.bind_eq_some_iff.mp hget
      obtain rfl : m.owner = name := Option.some.inj (Option.filter_eq_some_iff.mp hpresent).1
      exact find?_eq_some_iff.mp hfind
    have hsame : d = t := by
      have hd := lookup_of_mem hname.1
      rw [hname.2, h t ht m hm, lookup_of_mem ht] at hd
      exact hd.symm
    subst hsame
    simp [hm]

theorem mem_methods_of_reachable (hentries : ∀ m ∈ entries, m ∈ p.methods) {m : Method}
    (hm : m ∈ (CallGraph.build p entries).reachable) : m ∈ p.methods := by
  rcases List.mem_append.mp ((CallGraph.invariant_build p entries).mem_pool hm) with h | h
  · exact hentries m h
  · exact h

/-- The caller of a call that names the reached method it stands in. -/
theorem applicationCaller?_build {m : Method} (hm : m ∈ (CallGraph.build p entries).reachable)
    {s : CallSite} (hs : s.caller = some m.signature) :
    (CallGraph.build p entries).applicationCaller? p s =
      if p.isApplication (some m.owner) then some m.signature else none := by
  unfold CallGraph.applicationCaller?
  rw [hs, Option.bind_some, method?_build hm]

/-- The calls of the text of a graph are those of reached application methods to application
    methods, if calls name the method they stand in. -/
theorem mem_applicationCalls_iff (howners : p.NamesOwners)
    (hcaller : ∀ m ∈ p.methods, ∀ s ∈ m.sites, s.caller = some m.signature)
    (hentries : ∀ m ∈ entries, m ∈ p.methods) (c t : String) :
    (c, t) ∈ (CallGraph.build p entries).applicationCalls p ↔
      ∃ m ∈ (CallGraph.build p entries).reachable, m.signature = c ∧ p.OfApplication m ∧
        ∃ s ∈ m.sites, ∃ n ∈ (p.targets s).value, n.signature = t ∧ p.OfApplication n := by
  have hleast := CallGraph.leastClosed_of_invariant (CallGraph.invariant_build p entries)
  -- what one edge brings, when it is that of a call of a reached method
  have hedge : ∀ m ∈ (CallGraph.build p entries).reachable, ∀ s ∈ m.sites,
      ∀ n ∈ (p.targets s).value,
      (if p.isApplication (some n.owner) then
        ((CallGraph.build p entries).applicationCaller? p s).map (·, n.signature) else none) =
          some (c, t) ↔
        m.signature = c ∧ p.OfApplication m ∧ n.signature = t ∧ p.OfApplication n := by
    intro m hm s hs n hn
    have hmethod := mem_methods_of_reachable hentries hm
    rw [applicationCaller?_build hm (hcaller m hmethod s hs),
      ← howners.isApplication_iff hmethod,
      ← howners.isApplication_iff (mem_methods_of_mem_targets hn)]
    by_cases hcalls : p.isApplication (some m.owner) = true
    · by_cases hcalled : p.isApplication (some n.owner) = true
      · simp [hcalls, hcalled]
      · simp [hcalled]
    · simp [hcalls]
  unfold CallGraph.applicationCalls
  rw [List.mem_filterMap]
  constructor
  · rintro ⟨⟨s, n⟩, hmem, h⟩
    obtain ⟨m, hm, hs, hn⟩ := hleast.sound s n hmem
    obtain ⟨hc, hmapp, ht, hnapp⟩ := (hedge m hm s hs n hn).mp h
    exact ⟨m, hm, hc, hmapp, s, hs, n, hn, ht, hnapp⟩
  · rintro ⟨m, hm, hc, hmapp, s, hs, n, hn, ht, hnapp⟩
    exact ⟨(s, n), (hleast.closed m hm s hs n hn).1,
      (hedge m hm s hs n hn).mpr ⟨hc, hmapp, ht, hnapp⟩⟩

/-- The groups of the text of a graph have signatures of methods of the program. -/
theorem oneLine_groups (howners : p.NamesOwners)
    (hcaller : ∀ m ∈ p.methods, ∀ s ∈ m.sites, s.caller = some m.signature)
    (hentries : ∀ m ∈ entries, m ∈ p.methods) (hlines : ∀ m ∈ p.methods, Text.OneLine m.signature) :
    ∀ group ∈ (CallGraph.build p entries).groups p, group.OneLine := by
  have hcalls := mem_applicationCalls_iff howners hcaller hentries
  intro group hgroup
  obtain ⟨⟨t, ht⟩, hcallees⟩ := (CallGraph.grouped_groups _ p).forall_mem hgroup
  obtain ⟨m, hm, hc, _⟩ := (hcalls _ _).mp ht
  refine ⟨hc ▸ hlines m (mem_methods_of_reachable hentries hm), fun t ht => ?_⟩
  obtain ⟨_, _, _, _, s, _, n, hn, rfl, _⟩ := (hcalls _ _).mp (hcallees t ht)
  exact hlines n (mem_methods_of_mem_targets hn)

end Program

namespace Index

/-- The methods of a type of a catalog belong to it. -/
theorem Catalog.namesOwners_build {c : Catalog} (h : c.names.Nodup) :
    c.build.program.NamesOwners := by
  intro t ht m hm
  rw [types_build h] at ht
  obtain ⟨l, hl, rfl⟩ := List.mem_map.mp ht
  obtain ⟨d, _, rfl⟩ := List.mem_map.mp hl
  rw [methods_lowered] at hm
  obtain ⟨n, hn, rfl⟩ := List.mem_map.mp hm
  have howner : n.method.owner = d.name :=
    d.forall_link (P := fun m _ => m.owner = d.name) c c.scopes (fun _ => rfl)
      (fun _ _ _ _ => rfl) n hn
  have hname : (c.lowered (d.link c c.scopes)).name = d.name := d.head_name c c.scopes
  rw [hname]
  rcases c.lowerMethod_cases c.heads (d.link c c.scopes).declaration n with
    heq | ⟨body, code, _, _, heq⟩
  · rw [heq, howner]
  · rw [heq]
    exact howner

end Index

/-! ## Files -/

namespace Command

/-- The file of a call graph of an indexed program is read in one way only: each caller heads one
    group, each callee stands in it once, and they are the calls of the reached application methods
    that may lead to application methods. What is reached is what follows from the entry methods. -/
theorem callGraph_file_decodes {room : Nat} {files : List Index.File} {p : Program}
    {entries : List Method} {path : String} {r r' : Run}
    (hp : p = (Index.Indexer.ofFiles room files).build.1.program)
    (hlines : ∀ m ∈ p.methods, Text.OneLine m.signature) (hentries : ∀ m ∈ entries, m ∈ p.methods)
    (hsave : (save .callGraphFile (.text path) ((CallGraph.build p entries).render p)).run r =
      (.ok none, r'))
    (hkept : ¬ r.workspace.Discards path) :
    ∃ bytes text groups, r'.workspace.read path = .ok bytes ∧
      Text.Utf8.decode? bytes = some text ∧ CallGraph.Group.read? text = some groups ∧
      (∀ others : List CallGraph.Group, (∀ group ∈ others, group.OneLine) →
        (text = Text.unlines (others.flatMap CallGraph.Group.lines) ↔ others = groups)) ∧
      (groups.map CallGraph.Group.caller).Nodup ∧ (∀ group ∈ groups, group.callees.Nodup) ∧
      CallGraph.LeastClosed p entries (CallGraph.build p entries) ∧
      ∀ c t, (∃ group ∈ groups, group.caller = c ∧ t ∈ group.callees) ↔
        ∃ m ∈ (CallGraph.build p entries).reachable, m.signature = c ∧ p.OfApplication m ∧
          ∃ s ∈ m.sites, ∃ n ∈ (p.targets s).value, n.signature = t ∧ p.OfApplication n := by
  have howners : p.NamesOwners := by
    rw [hp, Index.Indexer.build_ofFiles]
    exact Index.Catalog.namesOwners_build (Index.Indexer.nodup_names_ofFiles room files)
  have hcaller : ∀ m ∈ p.methods, ∀ s ∈ m.sites, s.caller = some m.signature := by
    rw [hp]
    exact fun m hm s hs => Index.Indexer.caller_of_mem_sites hm hs
  have hgrouped := CallGraph.grouped_groups (CallGraph.build p entries) p
  have honeLine := Program.oneLine_groups howners hcaller hentries hlines
  have hread : CallGraph.Group.read? ((CallGraph.build p entries).render p) =
      some ((CallGraph.build p entries).groups p) :=
    CallGraph.Group.read?_eq_some_iff.mpr ⟨honeLine, CallGraph.unlines_lines _⟩
  refine ⟨_, _, _, read_of_save hsave hkept, Text.Utf8.decode?_encode _, hread,
    fun others hothers => ?_, hgrouped.callers, fun group h => (hgrouped.callees group h).2,
    CallGraph.leastClosed_of_invariant (CallGraph.invariant_build p entries),
    fun c t => (hgrouped.lists c t).trans
      (Program.mem_applicationCalls_iff howners hcaller hentries c t)⟩
  rw [CallGraph.unlines_lines]
  constructor
  · intro htext
    have hothers' := CallGraph.Group.read?_eq_some_iff.mpr ⟨hothers, htext⟩
    exact Option.some.inj (hothers'.symm.trans hread)
  · rintro rfl
    exact CallGraph.unlines_lines _

/-- `class A { void f() { g(); g(); } void g() {} }` -/
def twiceFile : Index.File where
  path := some "A.java"
  text := "class A { void f() { g(); g(); } void g() {} }".toUTF8.data
  tree := .node ⟨.other "program", true, 0, 0, 46, none⟩
    [.node ⟨.classDeclaration, true, 1, 0, 46, none⟩
       [.node ⟨.identifier, true, 3, 6, 7, some .name⟩ [],
        .node ⟨.classBody, true, 4, 8, 46, some .body⟩
          [.node ⟨.methodDeclaration, true, 6, 10, 32, none⟩
             [.node ⟨.other "void_type", true, 7, 10, 14, some .type⟩ [],
              .node ⟨.identifier, true, 8, 15, 16, some .name⟩ [],
              .node ⟨.other "formal_parameters", true, 9, 16, 18, some .parameters⟩ [],
              .node ⟨.block, true, 12, 19, 32, some .body⟩
                [.node ⟨.other "expression_statement", true, 14, 21, 25, none⟩
                   [.node ⟨.methodInvocation, true, 15, 21, 24, none⟩
                      [.node ⟨.identifier, true, 16, 21, 22, some .name⟩ [],
                       .node ⟨.other "argument_list", true, 17, 22, 24, some .arguments⟩ []]],
                 .node ⟨.other "expression_statement", true, 21, 26, 30, none⟩
                   [.node ⟨.methodInvocation, true, 22, 26, 29, none⟩
                      [.node ⟨.identifier, true, 23, 26, 27, some .name⟩ [],
                       .node ⟨.other "argument_list", true, 24, 27, 29, some .arguments⟩ []]]]],
           .node ⟨.methodDeclaration, true, 29, 33, 44, none⟩
             [.node ⟨.other "void_type", true, 30, 33, 37, some .type⟩ [],
              .node ⟨.identifier, true, 31, 38, 39, some .name⟩ [],
              .node ⟨.other "formal_parameters", true, 32, 39, 41, some .parameters⟩ [],
              .node ⟨.block, true, 35, 42, 44, some .body⟩ []]]]]

/-- The program of the file. -/
def twiceProgram : Program :=
  (Index.Indexer.ofFiles 100 [twiceFile]).build.1.program

/-- Saving its call graph from all methods on. -/
def saveTwice : Job (Option PathError) :=
  save .callGraphFile (.text "g")
    ((CallGraph.build twiceProgram twiceProgram.methods).render twiceProgram)

/-- Two calls of one method make one line. -/
theorem callGraph_file_twice :
    (∀ m ∈ twiceProgram.methods, Text.OneLine m.signature) ∧
      ∃ r' bytes text groups, saveTwice.run blankRun = (.ok none, r') ∧
        r'.workspace.read "g" = .ok bytes ∧ Text.Utf8.decode? bytes = some text ∧
        CallGraph.Group.read? text = some groups ∧ (∀ group ∈ groups, group.callees.Nodup) ∧
        ∃ group ∈ groups, group.caller = "<A: void f()>" ∧ "<A: void g()>" ∈ group.callees := by
  have hlines : ∀ m ∈ twiceProgram.methods, Text.OneLine m.signature := by decide +kernel
  have hlocate : blankRun.workspace.locate "g" = .ok ["g"] := rfl
  have hsave : saveTwice.run blankRun = (.ok none, (saveTwice.run blankRun).2) := rfl
  obtain ⟨bytes, text, groups, hread, hdecode, hgroups, _, _, hnodup, _, hcalls⟩ :=
    callGraph_file_decodes (p := twiceProgram) rfl hlines (fun m hm => hm) hsave
      (Workspace.not_discards hlocate nofun)
  exact ⟨hlines, _, bytes, text, groups, hsave, hread, hdecode, hgroups, hnodup,
    (hcalls _ _).mpr (by decide +kernel)⟩

end Command
end ServiceReach

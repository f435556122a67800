import ServiceReach.Proofs.Index.Steps

/-
  Lowering neither loses nor repeats a call. Each call of a grammatical body that is run where it
  stands is one call site of one instruction, calls inside code of another method are none, and
  the calls of an instruction are in post-order, so a call comes after those in its arguments and
  in its receiver. This holds of every body that is lowered, and a body is lowered if there is room
  for each of its expressions. Some body without that room is not: nothing is left of it.
-/

namespace ServiceReach.Index

open Source Tree Trail

open scoped List

variable {p : Place} {body : List Tree} {scans : List (List Tree)} {t u : Tree}

/-- How the calls of a body are lowered: `called` has the nodes of the calls of each instruction. -/
structure CallsOnce (p : Place) (body : List Tree) (code : List Instruction)
    (called : List (List Tree)) : Prop where
  /-- The calls of an instruction are those of its nodes, in their order. -/
  recorded : List.Forall₂ (fun i nodes => List.Forall₂ p.Records i.calls nodes) code called
  /-- Each call that is run where it stands is among the nodes once. -/
  once : ∀ u ∈ nodesAll body, isCall u.kind = true →
    (∀ v ∈ nodesAll body, isApart v.kind = true → u ∉ nodesAll v.children) →
      (called.flatten.map Tree.id).count u.id = 1
  /-- What is inside code of another method is not among them. -/
  never : ∀ v ∈ nodesAll body, isOpaque v.kind = true → ∀ u ∈ nodesAll v.children,
    u.id ∉ called.flatten.map Tree.id
  /-- The nodes of an instruction are calls of the body, in post-order. -/
  ordered : ∀ nodes ∈ called, nodes <+ (nodesAll body).filter fun u => isCall u.kind
  /-- A call inside another comes before it. -/
  nested : ∀ nodes ∈ called, ∀ u ∈ nodes, ∀ w ∈ nodes, u ∈ nodesAll w.children → [u, w] <+ nodes

theorem sane_visits (h : Grammatical body) : Sane (body.map .visit) := by
  intro s hs c hc
  obtain ⟨t, ht, rfl⟩ := List.mem_map.mp hs
  rw [List.mem_singleton.mp hc]
  exact h.of_mem ht

/-- The calls in grammatical trees are those of their nodes that are not inside code of another
    method. -/
theorem flatMap_callNodes {scan : List Tree} (h : ∀ c ∈ scan, Grammatical [c]) :
    scan.flatMap callNodes = (outsideAll isOpaque scan).filter fun u => isCall u.kind := by
  rw [outsideAll_eq, List.filter_flatMap]
  exact List.flatMap_congr fun c hc => callNodes_eq (h c hc)

/-- No call of a body is scanned twice. -/
theorem Scans.nodup (hscans : Scans p (body.map .visit) scans) (h : Grammatical body) :
    ((scans.flatten.flatMap callNodes).map Tree.id).Nodup := by
  have hsane := sane_visits h
  have hsubperm := hscans.subperm hsane
  rw [trees_visits] at hsubperm
  obtain ⟨l, hperm, hsub⟩ := hsubperm
  have hnodup : (l.map Tree.id).Nodup :=
    h.distinct.sublist ((hsub.trans (outsideAll_sublist_nodesAll isOpaque body)).map Tree.id)
  have hscanned := (hperm.map Tree.id).nodup_iff.mp hnodup
  rw [flatMap_callNodes]
  · exact hscanned.sublist (List.filter_sublist.map Tree.id)
  · intro c hc
    obtain ⟨scan, hscan, hc⟩ := List.mem_flatten.mp hc
    exact hscans.sane hsane scan hscan c hc

/-- Each call of a body that is run where it stands is scanned. -/
theorem Scans.mem_of_outside (hscans : Scans p (body.map .visit) scans) (h : Grammatical body)
    (hu : u ∈ nodesAll body) (hcall : isCall u.kind = true)
    (houtside : ∀ v ∈ nodesAll body, isApart v.kind = true → u ∉ nodesAll v.children) :
    u ∈ scans.flatten.flatMap callNodes := by
  rw [nodesAll_eq] at hu
  obtain ⟨t, ht, hu⟩ := List.mem_flatMap.mp hu
  have hapart : u ∈ t.outside isApart :=
    mem_outside hu fun v hv => houtside v ((nodes_sublist_nodesAll ht).subset hv)
  refine hscans.calls (sane_visits h) (List.mem_flatMap.mpr ⟨.visit t, ?_, ?_⟩)
  · exact List.mem_map_of_mem ht
  · exact List.mem_filter.mpr ⟨hapart, hcall⟩

/-- What an instruction scans is in post-order. -/
theorem Scans.ordered (hscans : Scans p (body.map .visit) scans) (h : Grammatical body)
    {scan : List Tree} (hscan : scan ∈ scans) :
    scan.flatMap callNodes <+ (outsideAll isOpaque body).filter fun u => isCall u.kind := by
  have hsane := sane_visits h
  obtain ⟨s, hs, hsub⟩ := hscans.sublist hsane hscan
  obtain ⟨t, ht, rfl⟩ := List.mem_map.mp hs
  rw [flatMap_callNodes (hscans.sane hsane scan hscan)]
  refine (hsub.trans ?_).filter _
  rw [outsideAll_eq, outsideAll_eq]
  exact (List.singleton_sublist.mpr ht).flatMap _

theorem Scans.callsOnce (hscans : Scans p (body.map .visit) scans) (h : Grammatical body)
    {code : List Instruction} (hcode : List.Forall₂ p.RecordsAll code scans) :
    CallsOnce p body code (scans.map fun scan => scan.flatMap callNodes) := by
  have hflatten : (scans.map fun scan => scan.flatMap callNodes).flatten =
      scans.flatten.flatMap callNodes := by
    simp only [List.flatMap_def, List.map_flatten, List.flatten_flatten, List.map_map]
    rfl
  have hordered : ∀ nodes ∈ scans.map fun scan => scan.flatMap callNodes,
      nodes <+ (outsideAll isOpaque body).filter fun u => isCall u.kind := by
    intro nodes hnodes
    obtain ⟨scan, hscan, rfl⟩ := List.mem_map.mp hnodes
    exact hscans.ordered h hscan
  refine ⟨?_, ?_, ?_, ?_, ?_⟩
  · exact List.forall₂_map_right_iff.mpr hcode
  · intro u hu hcall houtside
    rw [hflatten]
    exact List.count_eq_one_of_mem (hscans.nodup h)
      (List.mem_map_of_mem (hscans.mem_of_outside h hu hcall houtside))
  · intro v hv hsealed u hu hmem
    obtain ⟨w, hw, hid⟩ := List.mem_map.mp hmem
    obtain ⟨nodes, hnodes, hw⟩ := List.mem_flatten.mp hw
    have hwoutside := (List.mem_filter.mp ((hordered nodes hnodes).subset hw)).1
    exact h.distinct.setsApart isOpaque v hv hsealed u hu w hwoutside hid.symm
  · intro nodes hnodes
    exact (hordered nodes hnodes).trans ((outsideAll_sublist_nodesAll isOpaque body).filter _)
  · intro nodes hnodes u hu w hw
    refine h.distinct.pair_sublist ?_ hu hw
    exact ((hordered nodes hnodes).trans List.filter_sublist).trans
      (outsideAll_sublist_nodesAll isOpaque body)

/-- The return added at the end calls nothing. -/
theorem CallsOnce.closeCode {code : List Instruction} {called : List (List Tree)}
    (h : CallsOnce p body code called) (m : Method) :
    ∃ called', CallsOnce p body (closeCode m code) called' := by
  unfold Index.closeCode
  split
  · have hflatten : (called ++ [[]]).flatten = called.flatten := by simp
    have hmem : ∀ nodes ∈ called ++ [[]], nodes ∈ called ∨ nodes = [] := by simp
    refine ⟨called ++ [[]], ?_, ?_, ?_, ?_, ?_⟩
    · exact List.rel_append h.recorded (.cons .nil .nil)
    · rw [hflatten]
      exact h.once
    · rw [hflatten]
      exact h.never
    · intro nodes hnodes
      rcases hmem nodes hnodes with hnodes | rfl
      · exact h.ordered nodes hnodes
      · exact List.nil_sublist _
    · intro nodes hnodes u hu
      rcases hmem nodes hnodes with hnodes | rfl
      · exact h.nested nodes hnodes u hu
      · cases hu
  · exact ⟨called, h⟩

/-- Lowering a grammatical body comes to an end without running out of steps. It does not give up
    if there is room for each expression in the body. If it does not give up, each call that is run
    where it stands is one call site of one instruction, calls inside lambdas and anonymous classes
    are none, and the calls of an instruction are in post-order. -/
theorem Place.lower_calls_once (p : Place) (m : Method) (params : List (String × String))
    (h : Grammatical body) :
    (∀ fuel b, weightOf body ≤ fuel →
      p.run fuel (body.map .visit) b = p.run (weightOf body) (body.map .visit) b) ∧
    ((∀ t ∈ body, t.FitsIn p.room) →
      ∃ code, (p.lower m params body).run.value = .ok code) ∧
    ∀ code, (p.lower m params body).run.value = .ok code →
      ∃ called, CallsOnce p body code called := by
  have hsane := sane_visits h
  have hcost : cost (body.map .visit) = weightOf body := cost_visits body
  obtain ⟨scans, hscans⟩ := exists_scans p hsane
  refine ⟨fun fuel b hfuel => ?_, fun hfits => ?_, ?_⟩
  · exact hscans.run_eq hsane (hcost ▸ hfuel) (Nat.le_of_eq hcost) b
  · obtain ⟨code, hcode, _⟩ := p.lower_answers m params hfits
    exact ⟨code, hcode⟩
  · have hlower : Ensures (p.lower m params body) fun code =>
        ∃ called, CallsOnce p body code called := by
      refine (hscans.run_records hsane (Nat.le_of_eq hcost) _).bind ?_
      rintro b ⟨code, hcode, hrecords⟩
      rw [List.nil_append] at hcode
      exact Ensures.pure ((hscans.callsOnce h (hcode ▸ hrecords)).closeCode m)
    exact hlower

/-! ## A guarded call -/

/-- The statement `if (ready()) run(() -> stop());`. -/
def guardedRun : Tree :=
  let call := fun (id : Nat) (arguments : List Tree) =>
    Source.Tree.node { kind := .methodInvocation, id }
      [.node { kind := .identifier, id := id + 1, field := some .name } [],
       .node { kind := .other "argument_list", id := id + 2, field := some .arguments } arguments]
  .node { kind := .ifStatement }
    [.node { kind := .other "if", named := false, id := 1 } [],
     .node { kind := .parenthesizedExpression, id := 2, field := some .condition } [call 3 []],
     .node { kind := .other "expression_statement", id := 6, field := some .consequence }
       [call 7 [.node { kind := .lambdaExpression, id := 10 } [call 11 []]]]]

/-- The place of a body in a program without types. -/
def barePlace : Place :=
  { scopes := ⟨[]⟩
    anonymous := []
    program := .empty
    entry := ⟨"Job.java", #[], guardedRun, true, {}⟩
    owner := "Job"
    method := "<Job: void start()>"
    room := 1000 }

/-- The method that the body is of. -/
def bareMethod : Method :=
  { owner := "Job", name := "start", hasBody := true }

theorem lower_calls_once_guarded :
    Grammatical [guardedRun] ∧
      ∃ code called, (barePlace.lower bareMethod [] [guardedRun]).run.value = .ok code ∧
        CallsOnce barePlace [guardedRun] code called := by
  have hgrammatical : Grammatical [guardedRun] := by
    refine ⟨?_, by decide, by decide⟩
    unfold Distinct
    decide
  obtain ⟨_, hanswers, hcalls⟩ := barePlace.lower_calls_once bareMethod [] hgrammatical
  obtain ⟨code, hcode⟩ := hanswers (by decide)
  obtain ⟨called, hcalled⟩ := hcalls code hcode
  exact ⟨hgrammatical, code, called, hcode, hcalled⟩

/-! ## A call that is lost -/

/-- A punctuation mark. -/
def punctuation (symbol : String) (id : Nat) : Tree :=
  .node { kind := .other symbol, named := false, id } []

/-- A tree between parentheses numbered from `k`. -/
def enclosed (k : Nat) (t : Tree) : List Tree :=
  [punctuation "(" k, t, punctuation ")" (k + 1)]

/-- A name in parentheses. -/
def parenthesized : Nat → Tree
  | 0 => .node { kind := .identifier } []
  | n + 1 => .node { kind := .parenthesizedExpression, id := 3 * n + 3 }
    (enclosed (3 * n + 1) (parenthesized n))

/-- The arguments of a call: a name in parentheses. -/
def parenthesizedArguments (n : Nat) : Tree :=
  .node { kind := .other "argument_list", id := 3 * n + 3, field := some .arguments }
    (enclosed (3 * n + 1) (parenthesized n))

/-- The call `g(((x)))`, with a number of parentheses. -/
def parenthesizedCall (n : Nat) : Tree :=
  .node { kind := .methodInvocation, id := 3 * n + 5 }
    [.node { kind := .identifier, id := 3 * n + 4, field := some .name } [],
     parenthesizedArguments n]

/-- The call as a statement. -/
def parenthesizedStatement (n : Nat) : Tree :=
  .node { kind := .other "expression_statement", id := 3 * n + 7 }
    [parenthesizedCall n, punctuation ";" (3 * n + 6)]

/-- The trees are grammatical, numbered below `k`, and all their code is run where it stands. -/
structure Below (k : Nat) (ts : List Tree) : Prop where
  grammatical : Grammatical ts
  ids : ∀ u ∈ nodesAll ts, u.id < k
  plain : ∀ u ∈ nodesAll ts, isApart u.kind = false

/-- One more node, with the next number. -/
theorem Below.add {k : Nat} {ts us : List Tree} (h : Below k ts)
    (hnodes : nodesAll us ~ t :: nodesAll ts) (hid : t.id = k)
    (htoken : t.isConstruct = false → t.children = [] ∧ isCall t.kind = false)
    (hformed : isFormed t = true) (hplain : isApart t.kind = false) : Below (k + 1) us := by
  have hall : ∀ {Q : Tree → Prop}, Q t → (∀ u ∈ nodesAll ts, Q u) → ∀ u ∈ nodesAll us, Q u := by
    intro Q ht hts u hu
    exact List.forall_mem_cons.mpr ⟨ht, hts⟩ u (hnodes.subset hu)
  refine ⟨⟨?_, hall htoken h.grammatical.token, hall hformed h.grammatical.formed⟩, ?_, ?_⟩
  · refine (hnodes.map Tree.id).nodup_iff.mpr (List.nodup_cons.mpr ⟨?_, h.grammatical.distinct⟩)
    intro hmem
    obtain ⟨u, hu, heq⟩ := List.mem_map.mp hmem
    have hlt := h.ids u hu
    omega
  · exact hall (by omega) fun u hu => Nat.lt_succ_of_lt (h.ids u hu)
  · exact hall hplain h.plain

theorem nodesAll_singleton_perm (t : Tree) : nodesAll [t] ~ t :: nodesAll t.children := by
  rw [nodesAll_eq, List.flatMap_singleton, nodes_eq]
  exact List.perm_append_singleton t _

theorem nodesAll_concat_perm (ts : List Tree) (symbol : String) (id : Nat) :
    nodesAll (ts ++ [punctuation symbol id]) ~ punctuation symbol id :: nodesAll ts := by
  unfold nodesAll
  rw [outsideAll_append]
  exact List.perm_append_singleton _ _

theorem Below.enclosed {k : Nat} (h : Below k [t]) : Below (k + 2) (enclosed k t) := by
  have hopen : Below (k + 1) [punctuation "(" k, t] :=
    h.add (List.Perm.refl _) rfl (fun _ => ⟨rfl, rfl⟩) rfl rfl
  have hclose := nodesAll_concat_perm [punctuation "(" k, t] ")" (k + 1)
  exact hopen.add hclose rfl (fun _ => ⟨rfl, rfl⟩) rfl rfl

theorem below_parenthesized (n : Nat) : Below (3 * n + 1) [parenthesized n] := by
  induction n with
  | zero =>
    have hnone : Below 0 [] := by
      refine ⟨⟨List.nodup_nil, ?_, ?_⟩, ?_, ?_⟩ <;> exact fun u hu => nomatch hu
    exact hnone.add (nodesAll_singleton_perm _) rfl (fun hno => nomatch hno) rfl rfl
  | succ n ih =>
    exact ih.enclosed.add (nodesAll_singleton_perm _) rfl (fun hno => nomatch hno) rfl rfl

theorem below_parenthesizedStatement (n : Nat) :
    Below (3 * n + 8) [parenthesizedStatement n] := by
  have harguments : Below (3 * n + 4) [parenthesizedArguments n] :=
    (below_parenthesized n).enclosed.add (nodesAll_singleton_perm _) rfl (fun hno => nomatch hno)
      rfl rfl
  have hname : Below (3 * n + 5) (parenthesizedCall n).children :=
    harguments.add (List.Perm.refl _) rfl (fun hno => nomatch hno) rfl rfl
  have hcall : Below (3 * n + 6) [parenthesizedCall n] :=
    hname.add (nodesAll_singleton_perm _) rfl (fun hno => nomatch hno) rfl rfl
  have hmark := nodesAll_concat_perm [parenthesizedCall n] ";" (3 * n + 6)
  have hchildren : Below (3 * n + 7) (parenthesizedStatement n).children :=
    hcall.add hmark rfl (fun _ => ⟨rfl, rfl⟩) rfl rfl
  exact hchildren.add (nodesAll_singleton_perm _) rfl (fun hno => nomatch hno) rfl rfl

theorem isConstruct_parenthesized (n : Nat) : (parenthesized n).isConstruct = true := by
  cases n with
  | zero => rfl
  | succ n => rfl

theorem filter_enclosed {k : Nat} (ht : t.isConstruct = true) :
    (enclosed k t).filter Tree.isConstruct = [t] := by
  have hopen : (punctuation "(" k).isConstruct = false := rfl
  have hclose : (punctuation ")" (k + 1)).isConstruct = false := rfl
  simp [enclosed, hopen, hclose, ht]

theorem callNodesOf_enclosed {k : Nat} (ht : t.isConstruct = true) :
    callNodesOf (enclosed k t) = callNodes t := by
  have hopen : (punctuation "(" k).isConstruct = false := rfl
  have hclose : (punctuation ")" (k + 1)).isConstruct = false := rfl
  simp [enclosed, callNodesOf, hopen, hclose, ht]

theorem callNodes_parenthesized (n : Nat) : callNodes (parenthesized n) = [] := by
  induction n with
  | zero => rfl
  | succ n ih =>
    change callNodesOf (enclosed (3 * n + 1) (parenthesized n)) ++ [] = []
    rw [callNodesOf_enclosed (isConstruct_parenthesized n), ih, List.append_nil]

theorem callNodes_parenthesizedStatement (n : Nat) :
    callNodes (parenthesizedStatement n) = [parenthesizedCall n] := by
  have harguments : callNodesOf (enclosed (3 * n + 1) (parenthesized n)) = [] := by
    rw [callNodesOf_enclosed (isConstruct_parenthesized n), callNodes_parenthesized]
  change (((callNodesOf (enclosed (3 * n + 1) (parenthesized n)) ++ []) ++ []) ++
    [parenthesizedCall n]) ++ [] ++ [] = _
  rw [harguments]
  rfl

/-- Typing takes one call for each pair of parentheses, and one for the name. -/
theorem typeOfAt_parenthesized (p : Place) (locals : Locals) (known : Resolved) {room n : Nat}
    (h : room ≤ n) :
    (p.typeOfAt locals known room (parenthesized n)).run.value = .error .tooDeep := by
  induction room generalizing n with
  | zero => rfl
  | succ room ih =>
    cases n with
    | zero => omega
    | succ n =>
      have hown : ownFrames (parenthesized (n + 1)).kind = 1 := rfl
      rw [Place.typeOfAt_eq, hown, if_neg (by omega)]
      change (Place.typeOfOption (p.typeOfAt locals known room)
        ((enclosed (3 * n + 1) (parenthesized n)).filter Tree.isConstruct).head?).run.value = _
      rw [filter_enclosed (isConstruct_parenthesized n)]
      exact ih (by omega)

theorem callSite_parenthesizedCall (p : Place) (locals : Locals) (known : Resolved)
    (position ordinal : Nat) {n : Nat} (h : p.room ≤ n) :
    (p.callSite locals known position ordinal (parenthesizedCall n)).run.value =
      .error .tooDeep := by
  have hnodes : Place.argumentNodes (parenthesizedCall n) = [parenthesized n] :=
    filter_enclosed (isConstruct_parenthesized n)
  have hargument : (p.argument locals known (parenthesized n)).run.value = .error .tooDeep :=
    value_run_bind_of_error (typeOfAt_parenthesized p locals known h) _
  have hargs : ((Place.argumentNodes (parenthesizedCall n)).mapM
      (p.argument locals known)).run.value = .error .tooDeep := by
    rw [hnodes, List.mapM_cons]
    exact value_run_bind_of_error hargument _
  exact value_run_bind_of_error hargs _

/-- Lowering gives up a call with an argument in as many parentheses as there is room for calls. -/
theorem lower_parenthesizedStatement (p : Place) (m : Method) (params : List (String × String))
    {n : Nat} (h : p.room ≤ n) :
    (p.lower m params [parenthesizedStatement n]).run.value = .error .tooDeep := by
  have hemit : ∀ b line text kind,
      (p.emit b line text [parenthesizedStatement n] kind).run.value = .error .tooDeep := by
    intro b line text kind
    have hsite := callSite_parenthesizedCall p b.locals b.known b.code.length 0 h
    have hsites : (p.callSites b.locals b.code.length
        ([parenthesizedStatement n].flatMap callNodes) [] b.known).run.value = .error .tooDeep := by
      rw [List.flatMap_singleton, callNodes_parenthesizedStatement]
      exact value_run_bind_of_error hsite _
    exact value_run_bind_of_error hsites _
  have hfuel : ∃ k, weightOf [parenthesizedStatement n] = k + 2 := by
    refine ⟨weightOf [parenthesizedStatement n] - 2, ?_⟩
    rw [weightOf, weight_eq]
    omega
  obtain ⟨k, hk⟩ := hfuel
  have hrun : ∀ b, (p.run (weightOf [parenthesizedStatement n])
      ([parenthesizedStatement n].map .visit) b).run.value = .error .tooDeep := by
    intro b
    rw [hk]
    exact value_run_bind_of_error (hemit b _ _ _) _
  exact value_run_bind_of_error (hrun _) _

/-- A call can be lost although the body is grammatical and all its code is run where it stands. -/
theorem lower_loses_parenthesizedCall :
    Grammatical [parenthesizedStatement 1000] ∧
      parenthesizedCall 1000 ∈ nodesAll [parenthesizedStatement 1000] ∧
      isCall (parenthesizedCall 1000).kind = true ∧
      (∀ v ∈ nodesAll [parenthesizedStatement 1000], isApart v.kind = false) ∧
      (barePlace.lower bareMethod [] [parenthesizedStatement 1000]).run.value =
        .error .tooDeep := by
  have hbelow := below_parenthesizedStatement 1000
  have hroot : parenthesizedStatement 1000 ∈ nodesAll [parenthesizedStatement 1000] :=
    (sublist_nodesAll _).subset List.mem_cons_self
  refine ⟨hbelow.grammatical, mem_nodesAll_of_inside hroot ?_, rfl, hbelow.plain, ?_⟩
  · exact (sublist_nodesAll _).subset List.mem_cons_self
  · exact lower_parenthesizedStatement barePlace bareMethod [] (Nat.le_refl 1000)

end ServiceReach.Index

import ServiceReach.Index.Plan
import ServiceReach.Proofs.Source.Nodes

/-
  Bodies as the grammar has them. In a grammatical body the children of a control-flow statement
  are those that the grammar gives it, each under its own field (`isFormed`), and keywords,
  punctuation and comments hold nothing. The plan of such a statement then takes it apart without
  loss: it lists different children, each header in their order, and leaves out only children that
  hold no calls (`Splits`). Any other statement is listed whole, and a type declared in a body is
  left out.
-/

namespace ServiceReach.Index

open Source Tree

open scoped List

/-! ## Grammatical bodies -/

/-- Whether what is inside a node is not run where the node stands: it belongs to another method or
    type, or it is part of an annotation or of the label of a switch. -/
def isApart (kind : Kind) : Bool :=
  isOpaque kind || (DeclKind.ofNode? kind).isSome || kind == .switchLabel ||
    kind == .other "annotation_type_declaration" || kind == .other "annotation" ||
    kind == .other "marker_annotation"

/-- Whether a tree holds no calls that are run where it stands. -/
def isSilent (t : Tree) : Bool :=
  (t.outside isApart).all fun u => !isCall u.kind

/-- Whether there is at most one child under each of the fields, and all other children that are
    constructs satisfy a condition. -/
def hasFields (t : Tree) (fields : List Field) (other : Tree → Bool) : Bool :=
  (fields.all fun f => (t.fields f).length ≤ 1) &&
    t.constructs.all fun c => (fields.any fun f => c.label.field == some f) || other c

/-- Whether at most one child is of a kind. -/
def hasOneOf (t : Tree) (kind : Kind) : Bool :=
  (t.children.filter fun c => c.kind == kind).length ≤ 1

/-- Whether the body of a statement is a block. -/
def hasBlock (t : Tree) : Bool :=
  (t.fields .body).all fun c => c.kind == .block

/-- Whether a node is a clause of a `try` statement. -/
def isClause (t : Tree) : Bool :=
  t.kind == .catchClause || t.kind == .finallyClause

/-- Whether the children of a control-flow statement are those that the grammar gives it. Types,
    names and modifiers hold no calls outside annotations. -/
def isFormed (t : Tree) : Bool :=
  match t.kind with
  | .ifStatement => hasFields t [.condition, .consequence, .alternative] fun _ => false
  | .whileStatement | .switchExpression | .switchStatement =>
    hasFields t [.condition, .body] fun _ => false
  | .doStatement => hasFields t [.body, .condition] fun _ => false
  | .enhancedForStatement => hasFields t [.value, .body] isSilent
  | .synchronizedStatement =>
    hasFields t [.body] (fun c => c.kind == .parenthesizedExpression) && hasBlock t &&
      hasOneOf t .parenthesizedExpression
  | .tryStatement => hasFields t [.body] isClause && hasBlock t
  | .tryWithResourcesStatement =>
    hasFields t [.resources, .body] isClause && hasBlock t &&
      (t.fields .resources).all fun c => !isClause c
  | .catchClause => hasFields t [.body] isSilent
  | .finallyClause => t.constructs.all (fun c => c.kind == .block) && hasOneOf t .block
  | .labeledStatement => t.constructs.all fun c => c.kind != .identifier || isSilent c
  | _ => true

/-- The trees are as the grammar has them, and the numbers of their nodes are distinct. -/
structure Grammatical (body : List Tree) : Prop where
  distinct : Distinct body
  token : ∀ t ∈ nodesAll body, t.isConstruct = false → t.children = [] ∧ isCall t.kind = false
  formed : ∀ t ∈ nodesAll body, isFormed t = true

instance (body : List Tree) : Decidable (Grammatical body) :=
  decidable_of_iff (((nodesAll body).map Tree.id).Nodup ∧
      (∀ t ∈ nodesAll body, t.isConstruct = false → t.children = [] ∧ isCall t.kind = false) ∧
      ∀ t ∈ nodesAll body, isFormed t = true)
    ⟨fun ⟨distinct, token, formed⟩ => ⟨distinct, token, formed⟩,
      fun ⟨distinct, token, formed⟩ => ⟨distinct, token, formed⟩⟩

variable {t c u : Tree}

theorem Grammatical.of_mem {body : List Tree} (h : Grammatical body) (ht : t ∈ body) :
    Grammatical [t] := by
  have hsub : nodesAll [t] ⊆ nodesAll body := by
    rw [nodesAll_eq [t], List.flatMap_singleton]
    exact (nodes_sublist_nodesAll ht).subset
  exact ⟨h.distinct.of_mem ht, fun u hu => h.token u (hsub hu), fun u hu => h.formed u (hsub hu)⟩

theorem Grammatical.of_mem_children (h : Grammatical [t]) (hc : c ∈ t.children) :
    Grammatical [c] := by
  have hsub : nodesAll t.children ⊆ nodesAll [t] := by
    rw [nodesAll_eq [t], List.flatMap_singleton]
    exact (nodesAll_children_sublist t).subset
  have hchildren : Grammatical t.children :=
    ⟨h.distinct.children, fun u hu => h.token u (hsub hu), fun u hu => h.formed u (hsub hu)⟩
  exact hchildren.of_mem hc

theorem Grammatical.formed_root (h : Grammatical [t]) : isFormed t = true := by
  refine h.formed t ?_
  rw [nodesAll_eq, List.flatMap_singleton]
  exact mem_nodes_self t

theorem Grammatical.token_root (h : Grammatical [t]) (ht : t.isConstruct = false) :
    t.children = [] ∧ isCall t.kind = false := by
  refine h.token t ?_ ht
  rw [nodesAll_eq, List.flatMap_singleton]
  exact mem_nodes_self t

/-! ## Calls -/

theorem isCall_of_isOpaque {kind : Kind} (h : isOpaque kind = true) : isCall kind = false := by
  cases kind <;> first | rfl | cases h

theorem isApart_of_isOpaque {kind : Kind} (h : isOpaque kind = true) : isApart kind = true := by
  unfold isApart
  rw [h]
  rfl

theorem callNodesOf_eq (ts : List Tree) :
    callNodesOf ts = ts.flatMap fun t => if t.isConstruct then callNodes t else [] := by
  induction ts with
  | nil => rfl
  | cons t ts ih => rw [callNodesOf, ih, List.flatMap_cons]

theorem callNodes_subset (t : Tree) : callNodes t ⊆ t.nodes := by
  induction t using forall_of_children with
  | h t ih =>
    have hchildren : callNodesOf t.children ⊆ t.nodes := by
      intro u hu
      rw [callNodesOf_eq] at hu
      obtain ⟨c, hc, hu⟩ := List.mem_flatMap.mp hu
      split at hu
      · exact mem_nodes_iff.mpr (Or.inr ⟨c, hc, ih c hc hu⟩)
      · cases hu
    cases t with
    | node label children =>
      rw [callNodes]
      split
      · exact List.nil_subset _
      · refine List.append_subset.mpr ⟨hchildren, fun u hu => ?_⟩
        split at hu
        · rw [List.mem_singleton.mp hu]
          exact mem_nodes_self _
        · cases hu

/-- The calls in a tree are those of its nodes, in post-order, that are not inside code of another
    method. -/
theorem callNodes_eq (h : Grammatical [t]) :
    callNodes t = (t.outside isOpaque).filter fun u => isCall u.kind := by
  induction t using forall_of_children with
  | h t ih =>
    have hunfold : callNodes t = if isOpaque t.kind then [] else callNodesOf t.children ++
        (if isCall t.kind then [t] else []) := by
      cases t
      rw [callNodes]
      rfl
    rw [hunfold, outside_eq, List.filter_append, List.filter_singleton]
    by_cases hsealed : isOpaque t.kind = true
    · rw [if_pos hsealed, if_pos hsealed, isCall_of_isOpaque hsealed]
      rfl
    · rw [if_neg hsealed, if_neg hsealed, callNodesOf_eq, outsideAll_eq, List.filter_flatMap]
      congr 1
      · refine List.flatMap_congr fun c hc => ?_
        have hchild := h.of_mem_children hc
        cases hconstruct : c.isConstruct with
        | true => exact ih c hc hchild
        | false =>
          obtain ⟨hleaf, hcall⟩ := hchild.token_root hconstruct
          rw [outside_eq, hleaf, outsideAll, ite_self, List.nil_append, List.filter_singleton,
            hcall]
          rfl
      · cases isCall t.kind <;> rfl

/-! ## Children by field and by kind -/

theorem field?_eq_head? (f : Field) (t : Tree) : t.field? f = (t.fields f).head? := by
  unfold Tree.field? Tree.fields
  rw [List.head?_filter]

theorem mem_fields_of_field? {f : Field} (h : t.field? f = some c) : c ∈ t.fields f := by
  rw [field?_eq_head?] at h
  exact List.mem_of_mem_head? h

theorem toList_sublist_children {o : Option Tree} (h : ∀ c, o = some c → c ∈ t.children) :
    o.toList <+ t.children := by
  cases o with
  | none => exact List.nil_sublist _
  | some c => exact List.singleton_sublist.mpr (h c rfl)

theorem head?_of_length_le_one {l : List Tree} (hl : l.length ≤ 1) (hc : c ∈ l) :
    l.head? = some c := by
  match l with
  | [] => cases hc
  | [d] => rw [List.mem_singleton.mp hc, List.head?_cons]
  | _ :: _ :: _ => simp at hl

/-- The children under some fields, the first one under each. -/
def fieldTrees (t : Tree) (fields : List Field) : List Tree :=
  fields.flatMap fun f => (t.field? f).toList

theorem mem_fieldTrees {fields : List Field} :
    c ∈ fieldTrees t fields ↔ ∃ f ∈ fields, t.field? f = some c := by
  unfold fieldTrees
  simp only [List.mem_flatMap, Option.mem_toList]

theorem fieldTrees_subset (t : Tree) (fields : List Field) : fieldTrees t fields ⊆ t.children := by
  intro c hc
  obtain ⟨f, _, hf⟩ := mem_fieldTrees.mp hc
  exact mem_children_of_field? hf

theorem fieldTrees_singleton (t : Tree) (f : Field) :
    fieldTrees t [f] = (t.field? f).toList :=
  List.flatMap_singleton _ _

/-- Children under different fields are different. -/
theorem nodup_fieldTrees {fields : List Field} (h : fields.Nodup) :
    (fieldTrees t fields).Nodup := by
  unfold fieldTrees
  rw [List.nodup_flatMap]
  refine ⟨fun f _ => ?_, h.imp fun hne c hc hc' => hne ?_⟩
  · cases t.field? f with
    | none => exact List.nodup_nil
    | some c => exact List.nodup_singleton c
  · have hf := List.find?_some (Option.mem_toList.mp hc)
    have hf' := List.find?_some (Option.mem_toList.mp hc')
    rw [beq_iff_eq] at hf hf'
    exact Option.some.inj (hf.symm.trans hf')

theorem mem_fieldTrees_of_hasFields {fields : List Field} {other : Tree → Bool}
    (h : hasFields t fields other = true) (hc : c ∈ t.constructs) :
    c ∈ fieldTrees t fields ∨ other c = true := by
  unfold hasFields at h
  rw [Bool.and_eq_true, List.all_eq_true, List.all_eq_true] at h
  have hcase := h.2 c hc
  rw [Bool.or_eq_true, List.any_eq_true] at hcase
  refine hcase.imp_left ?_
  rintro ⟨f, hf, hfield⟩
  refine mem_fieldTrees.mpr ⟨f, hf, ?_⟩
  rw [field?_eq_head?]
  exact head?_of_length_le_one (of_decide_eq_true (h.1 f hf))
    (List.mem_filter.mpr ⟨(List.mem_filter.mp hc).1, hfield⟩)

theorem child?_of_hasOneOf {kind : Kind} (h : hasOneOf t kind = true) (hc : c ∈ t.children)
    (hkind : c.kind = kind) : t.child? [kind] = some c := by
  have hfind : t.child? [kind] = (t.children.filter fun c => c.kind == kind).head? := by
    unfold Tree.child?
    rw [List.head?_filter]
    simp only [List.contains_cons, List.contains_nil, Bool.or_false]
  rw [hfind]
  exact head?_of_length_le_one (of_decide_eq_true h)
    (List.mem_filter.mpr ⟨hc, by simpa using hkind⟩)

theorem kind_of_child? {kind : Kind} (h : t.child? [kind] = some c) : c.kind = kind := by
  simpa using List.find?_some h

/-! ## Control-flow statements -/

/-- The header and the bodies are different children, and hold all calls of the statement. -/
structure Cuts (t : Tree) (scan bodies : List Tree) : Prop where
  header : scan <+ t.children
  nested : bodies ⊆ t.children
  nodup : (scan ++ bodies).Nodup
  covers : ∀ c ∈ t.constructs, c ∈ scan ++ bodies ∨ isSilent c = true

theorem nodup_toList (o : Option Tree) : o.toList.Nodup := by
  cases o with
  | none => exact List.nodup_nil
  | some c => exact List.nodup_singleton c

theorem Cuts.of_fields {fields : List Field} (hnodup : fields.Nodup) {other : Tree → Bool}
    (hother : ∀ c, other c = true → isSilent c = true) (h : hasFields t fields other = true)
    {scan bodies : List Tree} (hscan : scan <+ t.children)
    (hsplit : scan ++ bodies = fieldTrees t fields) : Cuts t scan bodies := by
  refine ⟨hscan, fun c hc => ?_, hsplit ▸ nodup_fieldTrees hnodup, fun c hc => ?_⟩
  · exact fieldTrees_subset t fields (hsplit ▸ List.mem_append_right scan hc)
  · rw [hsplit]
    exact (mem_fieldTrees_of_hasFields h hc).imp_right (hother c)

theorem cuts_for (h : Distinct [t]) :
    Cuts t (t.constructs.filter fun c => (t.field? .body).map Tree.id != some c.id)
      (t.field? .body).toList := by
  have hscan : (t.constructs.filter fun c => (t.field? .body).map Tree.id != some c.id) <+
      t.children := List.filter_sublist.trans List.filter_sublist
  refine ⟨hscan, fun c hc => mem_children_of_field? (Option.mem_toList.mp hc), ?_, fun c hc => ?_⟩
  · refine (h.children.nodup_roots.sublist hscan).append (nodup_toList _) fun c hc hbody => ?_
    have hne := (List.mem_filter.mp hc).2
    rw [Option.mem_toList.mp hbody] at hne
    simp at hne
  · left
    by_cases hid : (t.field? .body).map Tree.id = some c.id
    · -- A child with the number of the body is the body.
      obtain ⟨d, hd, heq⟩ := Option.map_eq_some_iff.mp hid
      have hsame : d = c := h.children.eq
        ((sublist_nodesAll t.children).subset (mem_children_of_field? hd))
        ((sublist_nodesAll t.children).subset (List.mem_filter.mp hc).1) heq
      exact List.mem_append_right _ (Option.mem_toList.mpr (hsame ▸ hd))
    · exact List.mem_append_left _ (List.mem_filter.mpr ⟨hc, by simpa using hid⟩)

theorem cuts_synchronized
    (h : hasFields t [.body] (fun c => c.kind == .parenthesizedExpression) = true)
    (hblock : hasBlock t = true) (hone : hasOneOf t .parenthesizedExpression = true) :
    Cuts t (t.child? [.parenthesizedExpression]).toList (t.field? .body).toList := by
  rw [← fieldTrees_singleton]
  refine ⟨toList_sublist_children fun c hc => List.mem_of_find?_eq_some hc,
    fieldTrees_subset t [.body], ?_, fun c hc => ?_⟩
  · refine (nodup_toList _).append (nodup_fieldTrees (List.nodup_singleton _)) fun c hc hbody => ?_
    obtain ⟨f, hf, hfield⟩ := mem_fieldTrees.mp hbody
    rw [List.mem_singleton.mp hf] at hfield
    have hkind := List.all_eq_true.mp hblock c (mem_fields_of_field? hfield)
    rw [kind_of_child? (Option.mem_toList.mp hc)] at hkind
    cases hkind
  · left
    rcases mem_fieldTrees_of_hasFields h hc with hfield | hkind
    · exact List.mem_append_right _ hfield
    · exact List.mem_append_left _ (Option.mem_toList.mpr
        (child?_of_hasOneOf hone (List.mem_filter.mp hc).1 (beq_iff_eq.mp hkind)))

theorem not_isClause_of_hasBlock (h : hasBlock t = true) :
    ∀ c ∈ t.fields .body, isClause c = false := by
  intro c hc
  have hkind := beq_iff_eq.mp (List.all_eq_true.mp h c hc)
  rw [isClause, hkind]
  rfl

/-- The fields of a `try` statement, then its clauses. -/
theorem nodup_fieldTrees_append_clauses (h : Distinct [t]) {fields : List Field}
    (hnodup : fields.Nodup) (hclauses : ∀ f ∈ fields, ∀ c ∈ t.fields f, isClause c = false) :
    (fieldTrees t fields ++ t.constructs.filter isClause).Nodup := by
  refine (nodup_fieldTrees hnodup).append
    (h.children.nodup_roots.sublist (List.filter_sublist.trans List.filter_sublist))
    fun c hc hclause => ?_
  obtain ⟨f, hf, hfield⟩ := mem_fieldTrees.mp hc
  have hnot := hclauses f hf c (mem_fields_of_field? hfield)
  rw [(List.mem_filter.mp hclause).2] at hnot
  cases hnot

theorem mem_fieldTrees_append_clauses {fields : List Field}
    (h : hasFields t fields isClause = true) (hc : c ∈ t.constructs) :
    c ∈ fieldTrees t fields ++ t.constructs.filter isClause :=
  List.mem_append.mpr ((mem_fieldTrees_of_hasFields h hc).imp_right fun hclause =>
    List.mem_filter.mpr ⟨hc, hclause⟩)

theorem cuts_try (h : Distinct [t]) (hfields : hasFields t [.body] isClause = true)
    (hblock : hasBlock t = true) :
    Cuts t [] ((t.field? .body).toList ++ t.constructs.filter isClause) := by
  rw [← fieldTrees_singleton]
  refine ⟨List.nil_sublist _, ?_, ?_, fun c hc => Or.inl (mem_fieldTrees_append_clauses hfields hc)⟩
  · exact List.append_subset.mpr ⟨fieldTrees_subset t [.body],
      (List.filter_sublist.trans List.filter_sublist).subset⟩
  · refine nodup_fieldTrees_append_clauses h (List.nodup_singleton _) fun f hf => ?_
    rw [List.mem_singleton.mp hf]
    exact not_isClause_of_hasBlock hblock

theorem cuts_tryWithResources (h : Distinct [t])
    (hfields : hasFields t [.resources, .body] isClause = true) (hblock : hasBlock t = true)
    (hresources : (t.fields .resources).all (fun c => !isClause c) = true) :
    Cuts t (t.field? .resources).toList
      ((t.field? .body).toList ++ t.constructs.filter isClause) := by
  rw [← fieldTrees_singleton t .body]
  have hsplit : (t.field? .resources).toList ++
      (fieldTrees t [.body] ++ t.constructs.filter isClause) =
        fieldTrees t [.resources, .body] ++ t.constructs.filter isClause := by
    rw [← List.append_assoc]
    rfl
  refine ⟨toList_sublist_children fun c hc => mem_children_of_field? hc, ?_, ?_, fun c hc => ?_⟩
  · exact List.append_subset.mpr ⟨fieldTrees_subset t [.body],
      (List.filter_sublist.trans List.filter_sublist).subset⟩
  · rw [hsplit]
    refine nodup_fieldTrees_append_clauses h (by decide) fun f hf c hc => ?_
    rcases List.mem_cons.mp hf with rfl | hf
    · simpa using List.all_eq_true.mp hresources c hc
    · rw [List.mem_singleton.mp hf] at hc
      exact not_isClause_of_hasBlock hblock c hc
  · rw [hsplit]
    exact Or.inl (mem_fieldTrees_append_clauses hfields hc)

theorem cuts_finally (h : t.constructs.all (fun c => c.kind == .block) = true)
    (hone : hasOneOf t .block = true) : Cuts t [] (t.child? [.block]).toList := by
  refine ⟨List.nil_sublist _, ?_, nodup_toList _, fun c hc => Or.inl ?_⟩
  · exact fun c hc => List.mem_of_find?_eq_some (Option.mem_toList.mp hc)
  · exact Option.mem_toList.mpr (child?_of_hasOneOf hone (List.mem_filter.mp hc).1
      (beq_iff_eq.mp (List.all_eq_true.mp h c hc)))

theorem kind_of_parts? {parts : Parts} (h : parts? t = some parts) :
    isOpaque t.kind = false ∧ isCall t.kind = false := by
  unfold parts? at h
  split at h
  case h_12 => cases h
  all_goals
    rename_i hkind
    rw [hkind]
    exact ⟨rfl, rfl⟩

/-- The parts of a grammatical control-flow statement hold all its calls. -/
theorem cuts_parts (h : Grammatical [t]) {parts : Parts} (hparts : parts? t = some parts) :
    Cuts t parts.scan parts.bodies := by
  have hformed := h.formed_root
  have hsilent : ∀ c, (fun _ : Tree => false) c = true → isSilent c = true := by
    intro c hc
    cases hc
  have hfield : ∀ f, (t.field? f).toList <+ t.children := fun f =>
    toList_sublist_children fun c hc => mem_children_of_field? hc
  unfold parts? at hparts
  unfold isFormed at hformed
  split at hparts <;> rename_i hkind <;> cases hparts <;> rw [hkind] at hformed <;>
    simp only [Bool.and_eq_true] at hformed <;> dsimp only
  case h_1 => exact .of_fields (by decide) hsilent hformed (hfield _) (by simp [fieldTrees])
  case h_2 => exact .of_fields (by decide) hsilent hformed (hfield _) (by simp [fieldTrees])
  case h_3 => exact .of_fields (by decide) hsilent hformed (hfield _) (by simp [fieldTrees])
  case h_4 => exact .of_fields (by decide) hsilent hformed (hfield _) (by simp [fieldTrees])
  case h_5 => exact cuts_for h.distinct
  case h_6 =>
    exact .of_fields (by decide) (fun _ hc => hc) hformed (hfield _) (by simp [fieldTrees])
  case h_7 => exact cuts_synchronized hformed.1.1 hformed.1.2 hformed.2
  case h_8 => exact cuts_try h.distinct hformed.1 hformed.2
  case h_9 => exact cuts_tryWithResources h.distinct hformed.1.1 hformed.1.2 hformed.2
  case h_10 =>
    exact .of_fields (by decide) (fun _ hc => hc) hformed (List.nil_sublist _) (by simp [fieldTrees])
  case h_11 => exact cuts_finally hformed.1 hformed.2

/-! ## Plans -/

/-- The trees that a step lowers or scans. -/
def Step.trees : Step → List Tree
  | .visit t => [t]
  | .emit _ _ scan _ => scan
  | .declare _ | .bind _ _ => []

/-- The steps take a statement apart: they are about different children, each about some of them in
    their order, and leave out only what holds no calls. -/
structure Splits (t : Tree) (steps : List Step) : Prop where
  transparent : isOpaque t.kind = false
  noCall : isCall t.kind = false
  nodup : (steps.flatMap Step.trees).Nodup
  sublist : ∀ s ∈ steps, s.trees <+ t.children
  covers : ∀ c ∈ t.constructs, c ∈ steps.flatMap Step.trees ∨ isSilent c = true

theorem Splits.trees_subset {steps : List Step} (h : Splits t steps) :
    steps.flatMap Step.trees ⊆ t.children := by
  intro c hc
  obtain ⟨s, hs, hc⟩ := List.mem_flatMap.mp hc
  exact (h.sublist s hs).subset hc

theorem trees_visits (ts : List Tree) : (ts.map Step.visit).flatMap Step.trees = ts := by
  rw [List.flatMap_map]
  exact List.flatMap_singleton' ts

theorem sublist_visits {ts : List Tree} (h : ts ⊆ t.children) :
    ∀ s ∈ ts.map Step.visit, s.trees <+ t.children := by
  intro s hs
  obtain ⟨c, hc, rfl⟩ := List.mem_map.mp hs
  exact List.singleton_sublist.mpr (h hc)

theorem toList_field_subset (t : Tree) (f : Field) : (t.field? f).toList ⊆ t.children :=
  fun _ hc => mem_children_of_field? (Option.mem_toList.mp hc)

theorem toList_child_subset (t : Tree) (kinds : List Kind) :
    (t.child? kinds).toList ⊆ t.children :=
  fun _ hc => List.mem_of_find?_eq_some (Option.mem_toList.mp hc)

theorem constructs_filter_subset (t : Tree) (keep : Tree → Bool) :
    t.constructs.filter keep ⊆ t.children :=
  (List.filter_sublist.trans List.filter_sublist).subset

theorem parts_subset {parts : Parts} (h : parts? t = some parts) :
    parts.scan ⊆ t.children ∧ parts.bodies ⊆ t.children := by
  have hfield := toList_field_subset t
  have hchild := toList_child_subset t
  have hclauses : parts?.clauses t ⊆ t.children := constructs_filter_subset t _
  unfold parts? at h
  split at h
  · cases h
    exact ⟨hfield _, List.append_subset.mpr ⟨hfield _, hfield _⟩⟩
  · cases h
    exact ⟨hfield _, hfield _⟩
  · cases h
    exact ⟨hfield _, hfield _⟩
  · cases h
    exact ⟨hfield _, hfield _⟩
  · cases h
    exact ⟨constructs_filter_subset t _, hfield _⟩
  · cases h
    exact ⟨hfield _, hfield _⟩
  · cases h
    exact ⟨hchild _, hfield _⟩
  · cases h
    exact ⟨List.nil_subset _, List.append_subset.mpr ⟨hfield _, hclauses⟩⟩
  · cases h
    exact ⟨hfield _, List.append_subset.mpr ⟨hfield _, hclauses⟩⟩
  · cases h
    exact ⟨List.nil_subset _, hfield _⟩
  · cases h
    exact ⟨List.nil_subset _, hchild _⟩
  · cases h

theorem mem_bindNode (p : Place) {s : Step} (hs : s ∈ p.bindNode t) :
    ∃ name type, s = .bind name type := by
  unfold Place.bindNode at hs
  split at hs
  · cases hs
  · exact ⟨_, _, List.mem_singleton.mp hs⟩

/-- The header of a control-flow statement enters variables, of the header itself or of
    declarations in it. -/
theorem mem_headerVariables (p : Place) {s : Step} (hs : s ∈ p.headerVariables t) :
    (∃ name type, s = .bind name type) ∨ ∃ c ∈ t.children, s = .declare c := by
  unfold Place.headerVariables at hs
  split at hs
  · obtain ⟨c, hc, rfl⟩ := List.mem_map.mp hs
    exact Or.inr ⟨c, (List.mem_filter.mp (List.mem_filter.mp hc).1).1, rfl⟩
  · exact Or.inl (mem_bindNode p hs)
  · unfold Place.bindCaught at hs
    split at hs
    · cases hs
    · split at hs
      · exact Or.inl ⟨_, _, List.mem_singleton.mp hs⟩
      · cases hs
  · split at hs
    · cases hs
    · obtain ⟨c, _, hs⟩ := List.mem_flatMap.mp hs
      exact Or.inl (mem_bindNode p hs)
  · cases hs

theorem trees_headerVariables (p : Place) (t : Tree) :
    ∀ s ∈ p.headerVariables t, s.trees = [] := by
  intro s hs
  rcases mem_headerVariables p hs with ⟨name, type, rfl⟩ | ⟨c, _, rfl⟩
  · rfl
  · rfl

/-- The trees that a step reads. -/
def Step.reads : Step → List Tree
  | .declare t => [t]
  | s => s.trees

/-- A plan is about the statement and its children. -/
theorem reads_plan_subset (p : Place) (t : Tree) :
    ∀ s ∈ p.plan t, s.reads ⊆ t :: t.children := by
  have hself : [t] ⊆ t :: t.children :=
    List.cons_subset.mpr ⟨List.mem_cons_self, List.nil_subset _⟩
  have hbelow : ∀ {ts : List Tree}, ts ⊆ t.children → ts ⊆ t :: t.children := fun hts =>
    List.subset_cons_of_subset t hts
  have hchild : ∀ {c : Tree}, c ∈ t.children → [c] ⊆ t :: t.children := fun hc =>
    hbelow (List.cons_subset.mpr ⟨hc, List.nil_subset _⟩)
  have hvisits : ∀ {ts : List Tree}, ts ⊆ t.children →
      ∀ s ∈ ts.map Step.visit, s.reads ⊆ t :: t.children := by
    intro ts hts s hs
    obtain ⟨c, hc, rfl⟩ := List.mem_map.mp hs
    exact hchild (hts hc)
  have hgroup : ∀ mark, ∀ s ∈ p.switchGroup mark t, s.reads ⊆ t :: t.children := by
    intro mark
    refine List.forall_mem_append.mpr ⟨fun s hs => ?_, ?_⟩
    · obtain ⟨c, _, rfl⟩ := List.mem_map.mp hs
      exact List.nil_subset _
    · exact hvisits (constructs_filter_subset t _)
  unfold Place.plan
  split
  · exact hvisits List.filter_sublist.subset
  · split
    · exact fun s hs => absurd hs List.not_mem_nil
    · split
      · exact hvisits (constructs_filter_subset t _)
      · exact List.forall_mem_cons.mpr ⟨hself, List.forall_mem_singleton.mpr hself⟩
      · exact List.forall_mem_singleton.mpr hself
      · refine List.forall_mem_append.mpr ⟨List.forall_mem_cons.mpr ⟨List.nil_subset _, ?_⟩, ?_⟩
        · exact hvisits (toList_field_subset t _)
        · exact List.forall_mem_singleton.mpr (hbelow (toList_field_subset t _))
      · exact hgroup _
      · exact hgroup _
      · split
        · rename_i parts hparts
          obtain ⟨hheader, hbodies⟩ := parts_subset hparts
          refine List.forall_mem_cons.mpr
            ⟨hbelow hheader, List.forall_mem_append.mpr ⟨fun s hs => ?_, hvisits hbodies⟩⟩
          rcases mem_headerVariables p hs with ⟨name, type, rfl⟩ | ⟨c, hc, rfl⟩
          · exact List.nil_subset _
          · exact hchild hc
        · exact List.forall_mem_singleton.mpr hself

theorem Cuts.splits (p : Place) {scan bodies : List Tree} (h : Cuts t scan bodies)
    (hsealed : isOpaque t.kind = false) (hcall : isCall t.kind = false) (line : Nat)
    (text : String) :
    Splits t (.emit line text scan .branch :: (p.headerVariables t ++ bodies.map .visit)) := by
  have hheader : (p.headerVariables t).flatMap Step.trees = [] :=
    List.flatMap_eq_nil_iff.mpr (trees_headerVariables p t)
  have htrees : (Step.emit line text scan .branch ::
      (p.headerVariables t ++ bodies.map .visit)).flatMap Step.trees = scan ++ bodies := by
    rw [List.flatMap_cons, List.flatMap_append, hheader, trees_visits]
    rfl
  refine ⟨hsealed, hcall, htrees ▸ h.nodup, fun s hs => ?_, htrees ▸ h.covers⟩
  rcases List.mem_cons.mp hs with rfl | hs
  · exact h.header
  · rcases List.mem_append.mp hs with hs | hs
    · rw [trees_headerVariables p t s hs]
      exact List.nil_sublist _
    · exact sublist_visits h.nested s hs

theorem splits_visits (h : Distinct [t]) (hsealed : isOpaque t.kind = false)
    (hcall : isCall t.kind = false) {ts : List Tree} (hts : ts <+ t.children)
    (hcovers : ∀ c ∈ t.constructs, c ∈ ts ∨ isSilent c = true) : Splits t (ts.map .visit) := by
  refine ⟨hsealed, hcall, ?_, sublist_visits hts.subset, ?_⟩
  · rw [trees_visits]
    exact h.children.nodup_roots.sublist hts
  · rw [trees_visits]
    exact hcovers

theorem isSilent_switchLabel (h : t.kind = .switchLabel) : isSilent t = true := by
  have happart : isApart t.kind = true := by rw [h]; rfl
  have hcall : isCall t.kind = false := by rw [h]; rfl
  unfold isSilent
  rw [outside_eq, if_pos happart, List.nil_append, List.all_cons, hcall]
  rfl

theorem splits_switchGroup (p : Place) (h : Distinct [t]) (hsealed : isOpaque t.kind = false)
    (hcall : isCall t.kind = false) (mark : String) : Splits t (p.switchGroup mark t) := by
  unfold Place.switchGroup
  dsimp only
  have hlabels : ∀ s ∈ (t.constructs.filter fun c => c.kind == .switchLabel).map fun c =>
      Step.emit (p.line c) (Text.squash (p.entry.textOf c) ++ mark) [] .branch, s.trees = [] := by
    intro s hs
    obtain ⟨c, _, rfl⟩ := List.mem_map.mp hs
    rfl
  have hvisits := splits_visits h hsealed hcall
    (List.filter_sublist.trans List.filter_sublist :
      (t.constructs.filter fun c => !(c.kind == .switchLabel)) <+ t.children) fun c hc => by
    by_cases hlabel : c.kind = .switchLabel
    · exact Or.inr (isSilent_switchLabel hlabel)
    · exact Or.inl (List.mem_filter.mpr ⟨hc, by simpa using hlabel⟩)
  refine ⟨hsealed, hcall, ?_, ?_, ?_⟩
  · rw [List.flatMap_append, List.flatMap_eq_nil_iff.mpr hlabels]
    exact hvisits.nodup
  · rintro s hs
    rcases List.mem_append.mp hs with hs | hs
    · rw [hlabels s hs]
      exact List.nil_sublist _
    · exact hvisits.sublist s hs
  · rw [List.flatMap_append, List.flatMap_eq_nil_iff.mpr hlabels]
    exact hvisits.covers

theorem splits_do (p : Place) (hsealed : isOpaque t.kind = false) (hcall : isCall t.kind = false)
    (h : hasFields t [.body, .condition] (fun _ => false) = true) : Splits t (p.doSteps t) := by
  have htrees : (p.doSteps t).flatMap Step.trees = fieldTrees t [.body, .condition] := by
    unfold Place.doSteps fieldTrees
    simp only [List.flatMap_append, trees_visits]
    rfl
  refine ⟨hsealed, hcall, htrees ▸ nodup_fieldTrees (by decide), fun s hs => ?_, fun c hc => ?_⟩
  · unfold Place.doSteps at hs
    rcases List.mem_append.mp hs with hs | hs
    · rcases List.mem_append.mp hs with hs | hs
      · rw [List.mem_singleton.mp hs]
        exact List.nil_sublist _
      · exact sublist_visits (fun c hc => mem_children_of_field? (Option.mem_toList.mp hc)) s hs
    · rw [List.mem_singleton.mp hs]
      exact toList_sublist_children fun c hc => mem_children_of_field? hc
  · rw [htrees]
    exact (mem_fieldTrees_of_hasFields h hc).imp_right fun hno => nomatch hno

/-- The steps list a statement whole. -/
def Keeps (t : Tree) (steps : List Step) : Prop :=
  ∃ line text kind rest, steps = .emit line text [t] kind :: rest ∧ ∀ s ∈ rest, s.trees = []

/-- The plan of a grammatical statement takes it apart without loss or lists it whole; only the
    declaration of a type is left out. -/
theorem plan_cases (p : Place) (h : Grammatical [t]) :
    Splits t (p.plan t) ∨ Keeps t (p.plan t) ∨
      p.plan t = [] ∧ isApart t.kind = true ∧ isCall t.kind = false := by
  have hformed := h.formed_root
  unfold Place.plan
  split
  · rename_i hcontainer
    refine Or.inl (splits_visits h.distinct ?_ ?_ List.filter_sublist fun c hc => Or.inl hc)
    · revert hcontainer
      cases t.kind <;> simp [isContainer, isOpaque]
    · revert hcontainer
      cases t.kind <;> simp [isContainer, isCall]
  · split
    · rename_i hdeclares
      refine Or.inr (Or.inr ⟨rfl, ?_, ?_⟩)
      · rw [isApart, hdeclares]
        simp
      · revert hdeclares
        cases t.kind <;> simp [DeclKind.ofNode?, isCall]
    · split
      · rename_i hkind
        rw [isFormed, hkind] at hformed
        refine Or.inl (splits_visits h.distinct (by rw [hkind]; rfl) (by rw [hkind]; rfl)
          (List.filter_sublist.trans List.filter_sublist) fun c hc => ?_)
        by_cases hname : c.kind = .identifier
        · right
          simpa [hname] using List.all_eq_true.mp hformed c hc
        · exact Or.inl (List.mem_filter.mpr ⟨hc, by simpa using hname⟩)
      · exact Or.inr (Or.inl ⟨_, _, _, _, rfl, fun s hs => by rw [List.mem_singleton.mp hs]; rfl⟩)
      · exact Or.inr (Or.inl ⟨_, _, _, _, rfl, fun s hs => nomatch hs⟩)
      · rename_i hkind
        rw [isFormed, hkind] at hformed
        exact Or.inl (splits_do p (by rw [hkind]; rfl) (by rw [hkind]; rfl) hformed)
      · rename_i hkind
        exact Or.inl (splits_switchGroup p h.distinct (by rw [hkind]; rfl) (by rw [hkind]; rfl) _)
      · rename_i hkind
        exact Or.inl (splits_switchGroup p h.distinct (by rw [hkind]; rfl) (by rw [hkind]; rfl) _)
      · split
        · rename_i parts hparts
          obtain ⟨hsealed, hcall⟩ := kind_of_parts? hparts
          exact Or.inl ((cuts_parts h hparts).splits p hsealed hcall _ _)
        · exact Or.inr (Or.inl ⟨_, _, _, _, rfl, fun s hs => nomatch hs⟩)

/-! ## What plans keep -/

/-- The calls that a step leads to. -/
def Step.calls : Step → List Tree
  | .visit t => (t.outside isApart).filter fun u => isCall u.kind
  | .emit _ _ scan _ => scan.flatMap callNodes
  | .declare _ | .bind _ _ => []

theorem Keeps.trees {steps : List Step} (h : Keeps t steps) : steps.flatMap Step.trees = [t] := by
  obtain ⟨line, text, kind, rest, rfl, hrest⟩ := h
  rw [List.flatMap_cons, List.flatMap_eq_nil_iff.mpr hrest]
  rfl

theorem Keeps.of_mem {steps : List Step} (h : Keeps t steps) {s : Step} (hs : s ∈ steps) :
    s.trees <+ [t] := by
  obtain ⟨line, text, kind, rest, rfl, hrest⟩ := h
  rcases List.mem_cons.mp hs with rfl | hs
  · exact List.Sublist.refl [t]
  · rw [hrest s hs]
    exact List.nil_sublist _

theorem grammatical_plan (p : Place) (h : Grammatical [t]) :
    ∀ s ∈ p.plan t, ∀ c ∈ s.trees, Grammatical [c] := by
  intro s hs c hc
  rcases plan_cases p h with hsplit | hkeep | ⟨hnil, _⟩
  · exact h.of_mem_children ((hsplit.sublist s hs).subset hc)
  · rw [List.mem_singleton.mp ((hkeep.of_mem hs).subset hc)]
    exact h
  · rw [hnil] at hs
    cases hs

theorem outsideAll_singleton (stop : Kind → Bool) (t : Tree) :
    outsideAll stop [t] = t.outside stop := by
  rw [outsideAll_eq, List.flatMap_singleton]

theorem outsideAll_children_sublist (h : isOpaque t.kind = false) :
    outsideAll isOpaque t.children <+ t.outside isOpaque := by
  rw [outside_eq, if_neg (by rw [h]; exact Bool.false_ne_true)]
  exact List.sublist_append_left _ _

/-- The plan of a statement has no node of it twice. -/
theorem plan_subperm (p : Place) (h : Grammatical [t]) :
    outsideAll isOpaque ((p.plan t).flatMap Step.trees) <+~ t.outside isOpaque := by
  rcases plan_cases p h with hsplit | hkeep | ⟨hnil, _⟩
  · exact (outsideAll_subperm (hsplit.nodup.subperm hsplit.trees_subset) isOpaque).trans
      (outsideAll_children_sublist hsplit.transparent).subperm
  · rw [hkeep.trees, outsideAll_singleton]
  · rw [hnil]
    exact List.nil_subperm

/-- The nodes of a step of the plan are nodes of the statement, in their order. -/
theorem plan_sublist (p : Place) (h : Grammatical [t]) {s : Step} (hs : s ∈ p.plan t) :
    outsideAll isOpaque s.trees <+ t.outside isOpaque := by
  rcases plan_cases p h with hsplit | hkeep | ⟨hnil, _⟩
  · refine List.Sublist.trans ?_ (outsideAll_children_sublist hsplit.transparent)
    rw [outsideAll_eq, outsideAll_eq]
    exact (hsplit.sublist s hs).flatMap _
  · rw [← outsideAll_singleton, outsideAll_eq, outsideAll_eq]
    exact (hkeep.of_mem hs).flatMap _
  · rw [hnil] at hs
    cases hs

theorem mem_callNodes (h : Grammatical [t]) (hu : u ∈ t.outside isApart)
    (hcall : isCall u.kind = true) : u ∈ callNodes t := by
  rw [callNodes_eq h]
  exact List.mem_filter.mpr
    ⟨(outside_sublist (fun _ => isApart_of_isOpaque) t).subset hu, hcall⟩

/-- The plan of a statement loses no call. -/
theorem plan_calls (p : Place) (h : Grammatical [t]) (hu : u ∈ t.outside isApart)
    (hcall : isCall u.kind = true) : u ∈ (p.plan t).flatMap Step.calls := by
  rcases plan_cases p h with hsplit | hkeep | ⟨_, happart, hno⟩
  · have hchild : ∃ c ∈ t.children, u ∈ c.outside isApart := by
      rw [outside_eq, List.mem_append, List.mem_singleton] at hu
      rcases hu with hu | rfl
      · split at hu
        · cases hu
        · rwa [outsideAll_eq, List.mem_flatMap] at hu
      · rw [hsplit.noCall] at hcall
        cases hcall
    obtain ⟨c, hc, hu⟩ := hchild
    have hgrammatical := h.of_mem_children hc
    have hconstruct : c.isConstruct = true := by
      by_contra hno
      obtain ⟨hleaf, hno⟩ := hgrammatical.token_root (Bool.not_eq_true _ ▸ hno)
      rw [outside_eq, hleaf, outsideAll, ite_self, List.nil_append, List.mem_singleton] at hu
      rw [hu, hno] at hcall
      cases hcall
    rcases hsplit.covers c (List.mem_filter.mpr ⟨hc, hconstruct⟩) with htree | hsilent
    · obtain ⟨s, hs, hc⟩ := List.mem_flatMap.mp htree
      refine List.mem_flatMap.mpr ⟨s, hs, ?_⟩
      cases s with
      | visit d =>
        rw [List.mem_singleton.mp hc] at hu
        exact List.mem_filter.mpr ⟨hu, hcall⟩
      | emit line text scan kind =>
        exact List.mem_flatMap.mpr ⟨c, hc, mem_callNodes hgrammatical hu hcall⟩
      | declare d => cases hc
      | bind name type => cases hc
    · have hno := List.all_eq_true.mp hsilent u hu
      rw [hcall] at hno
      cases hno
  · obtain ⟨line, text, kind, rest, hplan, _⟩ := hkeep
    rw [hplan, List.flatMap_cons]
    refine List.mem_append_left _ (List.mem_flatMap.mpr ⟨t, List.mem_cons_self, ?_⟩)
    exact mem_callNodes h hu hcall
  · rw [outside_eq, if_pos happart, List.nil_append, List.mem_singleton] at hu
    rw [hu, hno] at hcall
    cases hcall

end ServiceReach.Index

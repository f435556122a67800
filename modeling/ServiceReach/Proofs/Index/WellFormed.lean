import ServiceReach.Proofs.Index.Recorded
import ServiceReach.Proofs.Index.Steps
import ServiceReach.Proofs.Report.Callers

/-
  What may be relied on about a program built from files, whatever their trees. A type lists its own
  methods; a class has a constructor; methods without a body and methods of libraries have no code;
  code is numbered, and that of a method which returns nothing ends where the method is left. Only a
  body with an expression for which there is no room is given up, and a warning says so.
  Members are nodes of the trees (`declared_ofFiles`), so that a type has one static initialiser as
  long as no method is written with the name of one.
-/

namespace ServiceReach

/-- The code of the method ends where the method is left, by a return or a throw. -/
def Method.IsClosed (m : Method) : Prop :=
  ∃ before last, m.code = before ++ [last] ∧
    (last.isReturn = true ∨ Text.startsWith "throw " last.text = true)

/-- What is relied on about a method that a type lists. -/
structure Method.IsListedBy (t : TypeDecl) (m : Method) : Prop where
  owner : m.owner = t.name
  bare : m.hasBody = false ∨ t.isApplication = false → m.code = []
  numbered : m.IsNumbered

/-- What is relied on about a type. -/
structure TypeDecl.WellFormed (t : TypeDecl) : Prop where
  methods : ∀ m ∈ t.methods, m.IsListedBy t
  creates : t.isInterface = false → ∃ m ∈ t.methods, m.isConstructor = true

namespace Index

open Source Tree Trail

/-! ## Bodies -/

theorem closeCode_isClosed {m : Method} (h : m.returnType = "void") (code : List Instruction) :
    Method.IsClosed { m with code := closeCode m code } := by
  unfold Method.IsClosed closeCode
  cases hexit : endsInExit code with
  | false =>
    rw [if_pos (by simp [h])]
    exact ⟨code, _, rfl, Or.inl rfl⟩
  | true =>
    rw [if_neg (by simp)]
    unfold endsInExit at hexit
    cases hlast : code.getLast? with
    | none =>
      rw [hlast] at hexit
      cases hexit
    | some last =>
      rw [hlast] at hexit
      obtain ⟨before, hcode⟩ := List.getLast?_eq_some_iff.mp hlast
      exact ⟨before, last, hcode, by simpa using hexit⟩

/-! ## Linked methods -/

namespace Declaration

variable (d : Declaration) (c : Catalog) (scopes : Scopes)

theorem head_isApplication : (d.head c scopes).isApplication = d.entry.application := by
  unfold head
  split
  · rfl
  · dsimp only
    split <;> rfl
  · rfl

theorem kind_of_isInterface (h : (d.head c scopes).isInterface = false) :
    (d.kind == .interface) = false := by
  unfold head at h
  split at h
  · cases h
  · rename_i hkind
    rw [hkind]
    rfl
  · rename_i hkind _
    exact beq_eq_false_iff_ne.mpr hkind

/-- Only the bodies of application methods are set aside, and all of them are. -/
theorem isSome_body_link {m : LinkedMethod} (hm : m ∈ (d.link c scopes).methods) :
    m.body.isSome = (m.method.hasBody && d.entry.application) := by
  rw [methods_link] at hm
  obtain ⟨n, hn, rfl⟩ := List.mem_map.mp hm
  have hbody : n.body.isSome = n.method.hasBody :=
    d.forall_ownMethods (P := fun n => n.body.isSome = n.method.hasBody) scopes
      (fun _ => Option.isSome_map) (fun _ _ _ _ _ => rfl) n hn
  unfold LinkedMethod.inEntry
  cases happ : d.entry.application with
  | true => rw [if_pos rfl, hbody, Bool.and_true]
  | false => rw [if_neg Bool.false_ne_true, Bool.and_false]; rfl

/-- A class has a constructor, declared or implicit. -/
theorem exists_constructor_link (h : (d.kind == .interface) = false) :
    ∃ m ∈ (d.link c scopes).methods, m.method.isConstructor = true := by
  have hsome : ∃ n ∈ d.ownMethods scopes, n.method.isConstructor = true := by
    unfold ownMethods
    cases hany : (d.declaredMethods scopes).any fun m => m.method.isConstructor with
    | true =>
      obtain ⟨n, hn, hctor⟩ := List.any_eq_true.mp hany
      exact ⟨n, List.mem_append_left _ (List.mem_append_left _ hn), hctor⟩
    | false =>
      rw [implicitConstructor, h, hany]
      exact ⟨_, List.mem_append_right _ List.mem_cons_self, rfl⟩
  obtain ⟨n, hn, hctor⟩ := hsome
  refine ⟨n.inEntry d.entry, List.mem_map_of_mem hn, ?_⟩
  rw [(n.inEntry_eq d.entry).1]
  exact hctor

end Declaration

/-! ## Lowered types -/

namespace Catalog

variable {c : Catalog}

theorem lowered_eq (c : Catalog) (t : LinkedType) :
    c.lowered t = { t.type with
      methods := t.methods.map fun m => (c.lowerMethod c.heads t.declaration m).value.1 } := by
  unfold lowered lowerType
  simp only [Trail.value_bind, Trail.value_pure, Trail.value_mapM, List.map_map]
  rfl

/-- Lowering changes nothing about a method but its code. -/
theorem lowerMethod_eq (c : Catalog) (p : Program) (d : Declaration) (m : LinkedMethod) :
    ∃ code, (c.lowerMethod p d m).value.1 = { m.method with code } := by
  rcases c.lowerMethod_cases p d m with heq | ⟨body, code, _, _, heq⟩
  · exact ⟨m.method.code, heq⟩
  · exact ⟨code, heq⟩

theorem lowerMethod_of_body_none (p : Program) (d : Declaration) {m : LinkedMethod}
    (h : m.body.isNone = true) : (c.lowerMethod p d m).value.1 = m.method := by
  unfold lowerMethod
  rw [Option.isNone_iff_eq_none.mp h]
  rfl

/-- A lowered method that returns nothing is closed, unless its body has an expression for which
    there is no room. -/
theorem lowerMethod_isClosed (c : Catalog) (p : Program) (d : Declaration) {m : LinkedMethod}
    {body : List Tree} (hbody : m.body = some body) (hvoid : m.method.returnType = "void") :
    (c.lowerMethod p d m).value.1.IsClosed ∨
      (c.lowerMethod p d m).value = (m.method, [tooDeepRecord m.method]) ∧
        ∃ e ∈ nodesAll body, c.room < e.frames := by
  unfold lowerMethod
  rw [hbody]
  dsimp only
  rw [Trail.value_bind]
  cases hlower : ((c.place p d m.method).lower m.method m.params body).run.value with
  | ok code =>
    refine Or.inl ?_
    have hclosed : Ensures ((c.place p d m.method).lower m.method m.params body) fun code =>
        Method.IsClosed { m.method with code } :=
      (Ensures.trivial _).bind fun b _ => Ensures.pure (closeCode_isClosed hvoid b.code)
    exact hclosed code hlower
  | error e =>
    cases e
    refine Or.inr ⟨rfl, ?_⟩
    -- Were there room for all expressions, the body would have been lowered.
    by_contra hall
    obtain ⟨code, hcode, _⟩ := (c.place p d m.method).lower_answers m.method m.params
      fun t ht e he => Nat.le_of_not_lt fun hdeep =>
        hall ⟨e, (nodes_sublist_nodesAll ht).subset he, hdeep⟩
    rw [hlower] at hcode
    cases hcode

/-- What is said about a method stands in the log. -/
theorem mem_log_build {l : LinkedType} (hl : l ∈ c.link) {m : LinkedMethod} (hm : m ∈ l.methods)
    {r : LogRecord} (hr : r ∈ (c.lowerMethod c.heads l.declaration m).value.2) :
    r ∈ c.build.log := by
  have htype : r ∈ (c.lowerType c.heads l).value.2 := by
    unfold lowerType
    rw [Trail.value_bind, Trail.value_pure, Trail.value_mapM]
    exact List.mem_flatMap.mpr ⟨_, List.mem_map_of_mem hm, hr⟩
  unfold build
  refine List.mem_append_left _ (List.mem_flatMap.mpr ⟨(c.lowerType c.heads l).value, ?_, htype⟩)
  rw [Trail.value_mapM]
  exact List.mem_map_of_mem hl

/-- The types of a program are the lowered declarations. -/
theorem exists_declaration (h : c.names.Nodup) {t : TypeDecl}
    (ht : t ∈ c.build.program.types) :
    ∃ d ∈ c.declarations, t = c.lowered (d.link c c.scopes) := by
  rw [types_build h] at ht
  obtain ⟨l, hl, rfl⟩ := List.mem_map.mp ht
  obtain ⟨d, hd, rfl⟩ := List.mem_map.mp hl
  exact ⟨d, hd, rfl⟩

theorem mem_methods_lowered {d : Declaration} {m : Method} :
    m ∈ (c.lowered (d.link c c.scopes)).methods ↔
      ∃ n ∈ (d.link c c.scopes).methods, (c.lowerMethod c.heads d n).value.1 = m := by
  rw [methods_lowered]
  exact List.mem_map

theorem isApplication_lowered (c : Catalog) (d : Declaration) :
    (c.lowered (d.link c c.scopes)).isApplication = d.entry.application := by
  rw [lowered_eq]
  exact d.head_isApplication c c.scopes

/-- The body of a method was given up: it has an expression for which there is no room. The method
    is left without code, and a warning says so. -/
structure GaveUp (c : Catalog) (m : Method) : Prop where
  bare : m.code = []
  warned : tooDeepRecord m ∈ c.build.log
  deep : ∃ d ∈ c.declarations, ∃ n ∈ (d.link c c.scopes).methods, n.method = m ∧
    ∃ body, n.body = some body ∧ ∃ e ∈ nodesAll body, c.room < e.frames

theorem wellFormed_build (h : c.names.Nodup) {t : TypeDecl}
    (ht : t ∈ c.build.program.types) : t.WellFormed := by
  have hnumbered : ∀ m ∈ t.methods, m.IsNumbered := fun m hm =>
    isNumbered_build h (List.mem_flatMap.mpr ⟨t, ht, hm⟩)
  have howner : ∀ m ∈ t.methods, m.owner = t.name := namesOwners_build h t ht
  obtain ⟨d, hd, rfl⟩ := exists_declaration h ht
  refine ⟨fun m hm => ⟨howner m hm, fun hbare => ?_, hnumbered m hm⟩, fun hclass => ?_⟩
  · rw [isApplication_lowered] at hbare
    obtain ⟨n, hn, rfl⟩ := mem_methods_lowered.mp hm
    obtain ⟨code, hcode⟩ := c.lowerMethod_eq c.heads d n
    have hmethod : (c.lowerMethod c.heads d n).value.1.hasBody = n.method.hasBody := by
      rw [hcode]
    rw [hmethod] at hbare
    have hbody : n.body.isSome = false := by
      rw [d.isSome_body_link c c.scopes hn, Bool.and_eq_false_iff]
      exact hbare
    rw [lowerMethod_of_body_none c.heads d (Option.isSome_eq_false_iff.mp hbody)]
    exact d.code_link c c.scopes hn
  · have hkind := d.kind_of_isInterface c c.scopes (by rw [lowered_eq] at hclass; exact hclass)
    obtain ⟨n, hn, hctor⟩ := d.exists_constructor_link c c.scopes hkind
    obtain ⟨code, hcode⟩ := c.lowerMethod_eq c.heads d n
    refine ⟨_, mem_methods_lowered.mpr ⟨n, hn, rfl⟩, ?_⟩
    rw [hcode]
    exact hctor

theorem isClosed_or_gaveUp (h : c.names.Nodup) {t : TypeDecl} (ht : t ∈ c.build.program.types)
    (happ : t.isApplication = true) {m : Method} (hm : m ∈ t.methods)
    (hbody : m.hasBody = true) (hvoid : m.returnType = "void") : m.IsClosed ∨ c.GaveUp m := by
  obtain ⟨d, hd, rfl⟩ := exists_declaration h ht
  rw [isApplication_lowered] at happ
  obtain ⟨n, hn, rfl⟩ := mem_methods_lowered.mp hm
  obtain ⟨code, hcode⟩ := c.lowerMethod_eq c.heads d n
  have hisSome : n.body.isSome = true := by
    rw [d.isSome_body_link c c.scopes hn, happ, Bool.and_true]
    rwa [hcode] at hbody
  obtain ⟨body, hsome⟩ := Option.isSome_iff_exists.mp hisSome
  have hreturn : n.method.returnType = "void" := by rwa [hcode] at hvoid
  rcases c.lowerMethod_isClosed c.heads d hsome hreturn with hclosed | ⟨hvalue, hdeep⟩
  · exact Or.inl hclosed
  · have hrecord : tooDeepRecord n.method ∈ (c.lowerMethod c.heads d n).value.2 := by
      rw [hvalue]
      exact List.mem_cons_self
    have hlog := mem_log_build (l := d.link c c.scopes) (List.mem_map_of_mem hd) hn hrecord
    have hmethod : (c.lowerMethod c.heads d n).value.1 = n.method := by rw [hvalue]
    rw [hmethod]
    exact Or.inr ⟨d.code_link c c.scopes hn, hlog, d, hd, n, hn, rfl, body, hsome, hdeep⟩

end Catalog

/-! ## Members as nodes of the files -/

/-- A node adds no declaration but itself. -/
theorem Scan.mem_declarations_enter {s : Scan} {e : Entry} {owner : Option String} {t : Tree}
    {d : Declaration} (h : d ∈ (s.enter e owner t).2.catalog.declarations) :
    d ∈ s.catalog.declarations ∨ d.entry = e ∧ d.node = t := by
  have hregister : ∀ (s' : Scan) {d' : Declaration},
      s'.catalog.declarations = s.catalog.declarations → d'.entry = e → d'.node = t →
      d ∈ (s'.register d').catalog.declarations →
      d ∈ s.catalog.declarations ∨ d.entry = e ∧ d.node = t := by
    intro s' d' hs' hentry hnode hd
    rcases mem_declarations_register hd with hd | rfl
    · exact Or.inl (hs' ▸ hd)
    · exact Or.inr ⟨hentry, hnode⟩
  unfold enter at h
  split at h
  · split at h
    · exact Or.inl h
    · exact hregister s rfl rfl rfl h
  · split at h
    · split at h
      · rw [registerAnonymous_eq] at h
        exact hregister (s.numbered e _ t) rfl rfl rfl h
      · exact Or.inl h
    · exact Or.inl h

mutual

/-- A scan declares nodes of its tree. -/
theorem scanTree_declares {e : Entry} {d : Declaration} (owner : Option String) :
    (t : Tree) → (s : Scan) → d ∈ (scanTree e owner t s).catalog.declarations →
      d ∈ s.catalog.declarations ∨ d.entry = e ∧ d.node ∈ t.nodes
  | .node label children, s, h => by
    rw [scanTree] at h
    rcases scanTrees_declares _ children _ h with h | ⟨hentry, c, hc, hnode⟩
    · rcases Scan.mem_declarations_enter h with h | ⟨hentry, hnode⟩
      · exact Or.inl h
      · exact Or.inr ⟨hentry, hnode ▸ mem_nodes_self _⟩
    · exact Or.inr ⟨hentry, mem_nodes_iff.mpr (Or.inr ⟨c, hc, hnode⟩)⟩

theorem scanTrees_declares {e : Entry} {d : Declaration} (owners : Nat → Option String) :
    (ts : List Tree) → (s : Scan) → d ∈ (scanTrees e owners ts s).catalog.declarations →
      d ∈ s.catalog.declarations ∨ d.entry = e ∧ ∃ t ∈ ts, d.node ∈ t.nodes
  | [], _, h => Or.inl h
  | t :: rest, s, h => by
    rw [scanTrees] at h
    rcases scanTrees_declares owners rest _ h with h | ⟨hentry, c, hc, hnode⟩
    · rcases scanTree_declares (owners t.id) t s h with h | ⟨hentry, hnode⟩
      · exact Or.inl h
      · exact Or.inr ⟨hentry, t, List.mem_cons_self, hnode⟩
    · exact Or.inr ⟨hentry, c, List.mem_cons_of_mem t hc, hnode⟩

end

/-- Every declaration is a node of one of the files. -/
theorem Indexer.declared_ofFiles {room : Nat} {files : List File} {d : Declaration}
    (h : d ∈ (ofFiles room files).catalog.declarations) :
    ∃ f ∈ files, d.entry.text = f.text ∧ d.node ∈ f.tree.nodes := by
  induction files using List.reverseRecOn with
  | nil => cases h
  | append_singleton files f ih =>
    rw [ofFiles_concat] at h
    rcases scanTree_declares none f.tree _ h with h | ⟨hentry, hnode⟩
    · obtain ⟨g, hg, htext⟩ := ih h
      exact ⟨g, List.mem_append_left _ hg, htext⟩
    · exact ⟨f, List.mem_append_right _ List.mem_cons_self, by rw [hentry]; rfl, hnode⟩

/-- The members of a declaration are nodes of it. -/
theorem Declaration.members_subset (d : Declaration) : d.members ⊆ d.node.nodes := by
  intro u hu
  unfold members at hu
  dsimp only at hu
  split at hu
  · cases hu
  · rename_i body hbody
    have hchild : body ∈ d.node.children := by
      split at hbody
      · exact List.mem_of_find?_eq_some hbody
      · exact mem_children_of_field? hbody
    obtain ⟨c, hc, hu⟩ := List.mem_flatMap.mp hu
    have hnodes : c.nodes ⊆ d.node.nodes := by
      intro v hv
      have hbodyNodes : v ∈ body.nodes :=
        mem_nodes_iff.mpr (Or.inr ⟨c, (List.mem_filter.mp hc).1, hv⟩)
      exact mem_nodes_iff.mpr (Or.inr ⟨body, hchild, hbodyNodes⟩)
    split at hu
    · exact hnodes (mem_nodes_of_mem_children (List.mem_filter.mp hu).1)
    · rw [List.mem_singleton.mp hu]
      exact hnodes (mem_nodes_self c)

/-- No method is written with the name of the static initialiser, which is no identifier. -/
def File.SparesInitializerName (f : File) : Prop :=
  ∀ t ∈ f.tree.nodes, t.kind = .methodDeclaration →
    (t.field? .name).map (textOf f.text) ≠ some "<clinit>"

instance (f : File) : Decidable f.SparesInitializerName :=
  inferInstanceAs (Decidable (∀ t ∈ f.tree.nodes, t.kind = .methodDeclaration →
    (t.field? .name).map (textOf f.text) ≠ some "<clinit>"))

/-- No declared method has the name of the static initialiser. -/
theorem Declaration.declaredMethods_name_ne {f : File} (hf : f.SparesInitializerName)
    (d : Declaration) (htext : d.entry.text = f.text) (hnode : d.node ∈ f.tree.nodes)
    (scopes : Scopes) : ∀ m ∈ d.declaredMethods scopes, m.method.name ≠ "<clinit>" := by
  intro m hm
  obtain ⟨t, ht, rfl⟩ := List.mem_map.mp hm
  obtain ⟨hmember, hkind⟩ := List.mem_filter.mp ht
  have hmem : t ∈ f.tree.nodes := (nodes_sublist hnode).subset (d.members_subset hmember)
  show (if t.kind == .constructorDeclaration then "<init>"
    else d.entry.textOf? (t.field? .name)) ≠ "<clinit>"
  split
  · decide
  · rename_i hctor
    have hmethod : t.kind = .methodDeclaration := by
      rcases Bool.or_eq_true_iff.mp hkind with hkind | hkind
      · exact beq_iff_eq.mp hkind
      · exact absurd hkind hctor
    have hname := hf t hmem hmethod
    cases hfield : t.field? .name with
    | none =>
      show "" ≠ "<clinit>"
      decide
    | some name =>
      rw [hfield, Option.map_some] at hname
      intro heq
      refine hname (congrArg some ?_)
      rw [← heq, ← htext]
      rfl

/-- A type has one static initialiser at most, if no method is written with its name. -/
theorem Catalog.count_initializer_le {c : Catalog} {f : File} (hf : f.SparesInitializerName)
    {d : Declaration} (htext : d.entry.text = f.text) (hnode : d.node ∈ f.tree.nodes) :
    ((c.lowered (d.link c c.scopes)).methods.map Method.name).count "<clinit>" ≤ 1 := by
  have hnames : (c.lowered (d.link c c.scopes)).methods.map Method.name =
      (d.ownMethods c.scopes).map fun m => m.method.name := by
    rw [methods_lowered, d.methods_link, List.map_map, List.map_map]
    refine List.map_congr_left fun m _ => ?_
    obtain ⟨code, hcode⟩ := c.lowerMethod_eq c.heads d (m.inEntry d.entry)
    show (c.lowerMethod c.heads d (m.inEntry d.entry)).value.1.name = m.method.name
    rw [hcode, ← (m.inEntry_eq d.entry).1]
  have hdeclared : ((d.declaredMethods c.scopes).map
      fun m => m.method.name).count "<clinit>" = 0 := by
    refine List.count_eq_zero.mpr fun hmem => ?_
    obtain ⟨m, hm, hname⟩ := List.mem_map.mp hmem
    exact d.declaredMethods_name_ne hf htext hnode c.scopes m hm hname
  have hstatic : (d.staticMethod.map fun m => m.method.name).count "<clinit>" ≤ 1 := by
    refine Nat.le_trans List.count_le_length ?_
    rw [List.length_map]
    unfold Declaration.staticMethod
    split
    · exact Nat.zero_le 1
    · exact Nat.le_refl 1
  have himplicit : ((d.implicitConstructor (d.declaredMethods c.scopes)).map
      fun m => m.method.name).count "<clinit>" = 0 := by
    refine List.count_eq_zero.mpr fun hmem => ?_
    obtain ⟨m, hm, hname⟩ := List.mem_map.mp hmem
    unfold Declaration.implicitConstructor at hm
    split at hm
    · cases hm
    · rw [List.mem_singleton.mp hm] at hname
      exact absurd hname (show "<init>" ≠ "<clinit>" by decide)
  rw [hnames, Declaration.ownMethods, List.map_append, List.map_append, List.count_append,
    List.count_append]
  omega

/-! ## Programs -/

/-- A program built from files is well formed, whatever their trees: a type lists its own methods,
    numbered and without code where there is nothing to lower; a class has a constructor; a type has
    one static initialiser at most; and the code of a method that returns nothing ends where the
    method is left, unless its body was given up. -/
theorem Indexer.build_wellFormed (room : Nat) (files : List File) {t : TypeDecl}
    (ht : t ∈ (ofFiles room files).build.1.program.types) :
    t.WellFormed ∧
      ((∀ f ∈ files, f.SparesInitializerName) →
        (t.methods.map Method.name).count "<clinit>" ≤ 1) ∧
      ∀ m ∈ t.methods, t.isApplication = true → m.hasBody = true → m.returnType = "void" →
        m.IsClosed ∨ (ofFiles room files).catalog.GaveUp m := by
  have hnodup := nodup_names_ofFiles room files
  rw [build_ofFiles] at ht
  refine ⟨Catalog.wellFormed_build hnodup ht, fun hfiles => ?_, fun m hm happ hbody hvoid => ?_⟩
  · obtain ⟨d, hd, rfl⟩ := Catalog.exists_declaration hnodup ht
    obtain ⟨f, hf, htext, hnode⟩ := declared_ofFiles hd
    exact Catalog.count_initializer_le (hfiles f hf) htext hnode
  · exact Catalog.isClosed_or_gaveUp hnodup ht happ hm hbody hvoid

/-- `class A { static { f(); } static { } void f(); void g() { throw e; } }` -/
def startupFile : File where
  path := some "A.java"
  text := "class A { static { f(); } static { } void f(); void g() { throw e; } }".toUTF8.data
  tree := .node ⟨.other "program", true, 0, 0, 70, none⟩
    [.node ⟨.classDeclaration, true, 1, 0, 70, none⟩
      [.node ⟨.identifier, true, 2, 6, 7, some .name⟩ [],
       .node ⟨.classBody, true, 3, 8, 70, some .body⟩
        [.node ⟨.staticInitializer, true, 4, 10, 25, none⟩
          [.node ⟨.block, true, 5, 17, 25, none⟩
            [.node ⟨.other "expression_statement", true, 6, 19, 23, none⟩
              [.node ⟨.methodInvocation, true, 7, 19, 22, none⟩
                [.node ⟨.identifier, true, 8, 19, 20, some .name⟩ [],
                 .node ⟨.other "argument_list", true, 9, 20, 22, some .arguments⟩ []]]]],
         .node ⟨.staticInitializer, true, 10, 26, 36, none⟩
          [.node ⟨.block, true, 11, 33, 36, none⟩ []],
         .node ⟨.methodDeclaration, true, 12, 37, 46, none⟩
          [.node ⟨.other "void_type", true, 13, 37, 41, some .type⟩ [],
           .node ⟨.identifier, true, 14, 42, 43, some .name⟩ [],
           .node ⟨.other "formal_parameters", true, 15, 43, 45, some .parameters⟩ []],
         .node ⟨.methodDeclaration, true, 16, 47, 68, none⟩
          [.node ⟨.other "void_type", true, 17, 47, 51, some .type⟩ [],
           .node ⟨.identifier, true, 18, 52, 53, some .name⟩ [],
           .node ⟨.other "formal_parameters", true, 19, 53, 55, some .parameters⟩ [],
           .node ⟨.block, true, 20, 56, 68, some .body⟩
            [.node ⟨.other "throw_statement", true, 21, 58, 66, none⟩
              [.node ⟨.identifier, true, 22, 64, 65, none⟩ []]]]]]]

/-- Two static initialisers are one method; a throw closes a body, and so does a return. -/
theorem Indexer.build_wellFormed_startup :
    (∀ f ∈ [startupFile], f.SparesInitializerName) ∧
      ∃ t ∈ (ofFiles 100 [startupFile]).build.1.program.types, t.isApplication = true ∧
        t.methods.map (fun m => (m.name, m.code.map Instruction.text)) =
          [("f", []), ("g", ["throw e;"]), ("<clinit>", ["f();", "return"]),
            ("<init>", ["return"])] ∧
        t.WellFormed ∧ (t.methods.map Method.name).count "<clinit>" ≤ 1 ∧
        ∀ m ∈ t.methods, m.hasBody = true → m.returnType = "void" →
          m.IsClosed ∨ (ofFiles 100 [startupFile]).catalog.GaveUp m := by
  have hfiles : ∀ f ∈ [startupFile], f.SparesInitializerName := by decide +kernel
  have htype : ∃ t ∈ (ofFiles 100 [startupFile]).build.1.program.types, t.isApplication = true ∧
      t.methods.map (fun m => (m.name, m.code.map Instruction.text)) =
        [("f", []), ("g", ["throw e;"]), ("<clinit>", ["f();", "return"]),
          ("<init>", ["return"])] := by decide +kernel
  obtain ⟨t, ht, happ, hcode⟩ := htype
  obtain ⟨hwell, hinitializer, hclosed⟩ := build_wellFormed 100 [startupFile] ht
  exact ⟨hfiles, t, ht, happ, hcode, hwell, hinitializer hfiles, fun m hm => hclosed m hm happ⟩

end Index
end ServiceReach

import ServiceReach.Proofs.CallGraph.Targeted
import ServiceReach.Proofs.Index.Build
import ServiceReach.Proofs.Index.Enclosing
import ServiceReach.Proofs.Index.Numbering
import ServiceReach.Proofs.Index.Recorded

/-
  The targets of the calls of an indexed program. A call site names its target by a signature
  only; the call graph looks it up again. If the names in the files are plain, the signature leads
  back to the method that was found for the call: the one that a search by name on the receiver
  brings. The signature of a call that could not be resolved leads nowhere.
-/

namespace ServiceReach

open Text

namespace Index

open Source Tree Trail

/-- The name holds no space, colon, parenthesis or bracket. -/
def PlainName (name : String) : Prop :=
  ∀ x ∈ name.toList, x ∉ [' ', ':', '(', ')', '[', ']']

instance (name : String) : Decidable (PlainName name) :=
  List.decidableBAll (fun x => x ∉ [' ', ':', '(', ')', '[', ']']) name.toList

theorem PlainName.spaceless {name : String} (h : PlainName name) : Spaceless name :=
  fun hmem => h ' ' hmem (by decide)

/-- A compound name that is plain is that of a class or interface. -/
theorem PlainName.isReferenceName {o simple : String} (h : PlainName (o ++ "$" ++ simple)) :
    isReferenceName (o ++ "$" ++ simple) = true := by
  have hdollar : '$' ∈ (o ++ "$" ++ simple).toList := by
    rw [String.toList_append, String.toList_append]
    exact List.mem_append_left _ (List.mem_append_right _ (by decide))
  generalize o ++ "$" ++ simple = name at h hdollar
  have hempty : name.isEmpty = false := by
    rw [Bool.eq_false_iff]
    intro hempty
    rw [String.isEmpty_iff.mp hempty] at hdollar
    exact absurd hdollar (by decide)
  have hprimitive : primitiveTypes.contains name = false := by
    rw [Bool.eq_false_iff]
    intro hmem
    have hnone : ∀ type ∈ primitiveTypes, '$' ∉ type.toList := by decide
    exact hnone name (List.contains_iff_mem.mp hmem) hdollar
  have harray : Text.endsWith "[]" name = false := by
    rw [Bool.eq_false_iff]
    intro hend
    have hbracket : ']' ∈ name.toList :=
      (List.isSuffixOf_iff_suffix.mp hend).subset (by decide)
    exact h ']' hbracket (by decide)
  rw [ServiceReach.isReferenceName, hempty, hprimitive, harray]
  rfl

/-- The import leads to a declared type, or it is written without a space. The name of an imported
    type that nobody declares is the text of the import, with the blanks in it. -/
def Scopes.ImportsPlainly (s : Scopes) (dotted : String) : Prop :=
  s.declares (s.toBinary dotted) = true ∨ Spaceless dotted

instance (s : Scopes) (dotted : String) : Decidable (s.ImportsPlainly dotted) :=
  inferInstanceAs (Decidable (_ ∨ _))

/-- The names that files declare are plain, so are the imports of types that they do not declare,
    and the return types of all methods are known. -/
structure Catalog.PlainNames (c : Catalog) : Prop where
  types : ∀ n ∈ c.names, PlainName n
  imports : ∀ d ∈ c.declarations, ∀ x ∈ d.entry.header.imports, c.scopes.ImportsPlainly x.2
  methods : ∀ l ∈ c.link, ∀ m ∈ l.type.methods, PlainName m.name ∧ m.returnType ≠ "?"

instance (c : Catalog) : Decidable c.PlainNames :=
  decidable_of_iff ((∀ n ∈ c.names, PlainName n) ∧
      (∀ d ∈ c.declarations, ∀ x ∈ d.entry.header.imports, c.scopes.ImportsPlainly x.2) ∧
      ∀ l ∈ c.link, ∀ m ∈ l.type.methods, PlainName m.name ∧ m.returnType ≠ "?")
    ⟨fun ⟨types, imports, methods⟩ => ⟨types, imports, methods⟩,
      fun ⟨types, imports, methods⟩ => ⟨types, imports, methods⟩⟩

/-! ## Linked types -/

theorem value_of_mem_setMember {α : Type} {key : String} {value : α} {l : List (String × α)}
    {x : String × α} (h : x ∈ Json.setMember key value l) : x.2 = value ∨ x ∈ l := by
  induction l with
  | nil => exact Or.inl (congrArg Prod.snd (List.mem_singleton.mp h))
  | cons y l ih =>
    obtain ⟨k, v⟩ := y
    rw [Json.setMember] at h
    split at h
    · rcases List.mem_cons.mp h with rfl | h
      · exact Or.inl rfl
      · exact Or.inr (List.mem_cons_of_mem _ h)
    · rcases List.mem_cons.mp h with rfl | h
      · exact Or.inr List.mem_cons_self
      · exact (ih h).imp_right (List.mem_cons_of_mem _)

section Linked

variable {c : Catalog} {d : Declaration} (h : c.PlainNames) (hindexed : c.Indexed)
  (hd : d ∈ c.declarations)

include h hindexed hd

theorem header_spaceless : d.entry.header.Spaceless c.scopes := by
  have hdeclared : ∀ name, c.scopes.declares name = true → Spaceless name := by
    intro name hname
    obtain ⟨x, hx, heq⟩ := List.any_eq_true.mp hname
    obtain ⟨d', hd', rfl⟩ := List.mem_map.mp hx
    exact (h.types name (List.mem_map.mpr ⟨d', hd', beq_iff_eq.mp heq⟩)).spaceless
  refine ⟨hdeclared, ?_, fun x hx => ?_⟩
  · -- The package is part of the name of the type, which is plain.
    exact (h.types d.name (List.mem_map_of_mem hd)).spaceless.of_subset (hindexed.packaged d hd)
  · rcases h.imports d hd x hx with hdeclares | hplain
    · exact hdeclared _ hdeclares
    · exact c.scopes.toBinary_spaceless hplain

theorem around_spaceless : ∀ n ∈ c.scopes.around (some d.name), Spaceless n := fun n hn =>
  (h.types n (hindexed.mem_around (List.mem_map_of_mem hd) hn)).spaceless

theorem resolveNode_clear (t : Option Tree) : Clear (d.resolveNode c.scopes t) := by
  intro r hr
  have hresolve : c.scopes.resolve d.entry.header (some d.name) (d.entry.textOf? t) = some r := hr
  exact Scopes.resolve_spaceless (header_spaceless h hindexed hd)
    (around_spaceless h hindexed hd) hresolve

theorem head_superclass_clear : Clear (d.head c c.scopes).superclass := by
  have hnode := resolveNode_clear h hindexed hd
  unfold Declaration.head
  split
  · exact clear_none
  · dsimp only
    split
    · exact clear_some (by decide)
    · dsimp only
      exact hnode _
  · dsimp only
    unfold Declaration.superclass
    split
    · split
      · exact clear_none
      · exact hnode _
    · split
      · exact clear_none
      · refine clear_some ?_
        cases d.kind <;> decide

theorem allFields_spaceless : ∀ f ∈ d.allFields c.scopes, Spaceless f.2 := by
  have hfold : ∀ (fields done : List (String × String)), (∀ f ∈ fields, Spaceless f.2) →
      (∀ f ∈ done, Spaceless f.2) →
      ∀ f ∈ fields.foldl (fun fs f => Json.setMember f.1 f.2 fs) done, Spaceless f.2 := by
    intro fields
    induction fields with
    | nil => exact fun _ _ hdone => hdone
    | cons x fields ih =>
      intro done hfields hdone
      obtain ⟨hx, hfields⟩ := List.forall_mem_cons.mp hfields
      refine ih _ hfields fun f hf => ?_
      rcases value_of_mem_setMember hf with heq | hf
      · rw [heq]
        exact hx
      · exact hdone f hf
  refine hfold _ [] (fun f hf => ?_) fun f hf => absurd hf List.not_mem_nil
  obtain ⟨member, _, hf⟩ := List.mem_flatMap.mp hf
  unfold Declaration.fieldsOf at hf
  split at hf
  · cases hf
  · rename_i type htype
    obtain ⟨t, _, hf⟩ := List.mem_filterMap.mp hf
    obtain ⟨name, _, rfl⟩ := Option.map_eq_some_iff.mp hf
    exact (resolveNode_clear h hindexed hd _).present type htype

theorem parameter_spaceless {t : Tree} {x : Parameter}
    (hx : d.parameter? c.scopes t = some x) : Spaceless x.type := by
  have htype : ∀ node, Spaceless ((present? (d.resolveNode c.scopes node)).getD "?") := by
    intro node
    cases hp : present? (d.resolveNode c.scopes node) with
    | none => decide
    | some type => exact (resolveNode_clear h hindexed hd node).present type hp
  unfold Declaration.parameter? at hx
  split at hx
  · cases hx
    dsimp only
    exact htype _
  · cases hx
    dsimp only
    exact (htype _).append (by decide)
  · cases hx

/-- The methods of a linked type belong to it, and their types hold no space. -/
theorem link_spaceless : ∀ l ∈ (d.link c c.scopes).methods, l.method.owner = d.name ∧
    Spaceless l.method.returnType ∧ ∀ e ∈ l.params, Spaceless e.2 := by
  have hvoid : Spaceless "void" := by decide
  refine d.forall_link (P := fun m params => m.owner = d.name ∧ Spaceless m.returnType ∧
    ∀ e ∈ params, Spaceless e.2) c c.scopes (fun t => ⟨rfl, ?_, fun e he => ?_⟩)
    fun _ _ _ _ => ⟨rfl, hvoid, fun e he => absurd he List.not_mem_nil⟩
  · unfold Declaration.method
    dsimp only
    split
    · decide
    · cases hp : present? (d.resolveNode c.scopes (t.field? .type)) with
      | none => decide
      | some type => exact (resolveNode_clear h hindexed hd _).present type hp
  · obtain ⟨x, hx, rfl⟩ := List.mem_map.mp he
    have hparam := List.fst_mem_of_mem_zipIdx hx
    split at hparam
    · cases hparam
    · obtain ⟨t, _, ht⟩ := List.mem_filterMap.mp hparam
      exact parameter_spaceless h hindexed hd ht

theorem type_link_spaceless : (d.link c c.scopes).type.Spaceless := by
  have hsuper : (d.link c c.scopes).type.superclass = (d.head c c.scopes).superclass := rfl
  have hfields : (d.link c c.scopes).type.fields = d.allFields c.scopes := rfl
  refine ⟨?_, ?_, fun m hm => ?_⟩
  · rw [hsuper]
    exact head_superclass_clear h hindexed hd
  · rw [hfields]
    exact allFields_spaceless h hindexed hd
  · obtain ⟨l, hl, rfl⟩ := List.mem_map.mp hm
    exact (link_spaceless h hindexed hd l hl).2.1

end Linked

/-! ## Lowered types -/

namespace Catalog

variable {c : Catalog}

theorem type_eq_bare (c : Catalog) {l : LinkedType} (hl : l ∈ c.link) :
    l.type = (c.lowered l).bare := by
  obtain ⟨d, _, rfl⟩ := List.mem_map.mp hl
  have hmethods : (d.link c c.scopes).type.methods =
      (c.lowered (d.link c c.scopes)).methods.map Method.bare := by
    rw [methods_lowered, List.map_map]
    refine List.map_congr_left fun m hm => ?_
    have hcode := d.code_link c c.scopes hm
    have hplain : m.method.bare = m.method := by rw [Method.bare, ← hcode]
    rw [Function.comp_apply]
    rcases c.lowerMethod_cases c.heads d m with heq | ⟨body, code, _, _, heq⟩
    · exact (congrArg Method.bare heq ▸ hplain).symm
    · exact (congrArg Method.bare heq ▸ hplain).symm
  rw [TypeDecl.bare, ← hmethods]
  rfl

/-- The linked types are those of the program, without the code. -/
theorem heads_eq_bare (h : c.names.Nodup) :
    c.heads.types = c.build.program.types.map TypeDecl.bare := by
  rw [types_heads h, types_build h, List.map_map]
  exact List.map_congr_left fun l hl => c.type_eq_bare hl

theorem PlainNames.heads_spaceless (h : c.PlainNames) (hindexed : c.Indexed) :
    c.heads.Spaceless := by
  intro t ht
  rw [types_heads hindexed.nodup] at ht
  obtain ⟨l, hl, rfl⟩ := List.mem_map.mp ht
  obtain ⟨d, hd, rfl⟩ := List.mem_map.mp hl
  exact type_link_spaceless h hindexed hd

theorem PlainNames.place_spaceless (h : c.PlainNames) (hindexed : c.Indexed) {d : Declaration}
    (hd : d ∈ c.declarations) (m : Method) : (c.place c.heads d m).Spaceless where
  header := header_spaceless h hindexed hd
  owner := (h.types d.name (List.mem_map_of_mem hd)).spaceless
  around := around_spaceless h hindexed hd
  anonymous := fun x hx => (h.types x.2 (hindexed.anonymous x hx)).spaceless
  program := h.heads_spaceless hindexed

/-- The signatures of the program can be read back. -/
theorem PlainNames.readable (h : c.PlainNames) (hindexed : c.Indexed) :
    c.build.program.Readable := by
  have hnodup := hindexed.nodup
  intro n m hm
  have hbare : m.bare ∈ (c.heads.lookup n).methods := by
    rw [Program.lookup_bare (heads_eq_bare hnodup)]
    exact List.mem_map_of_mem hm
  have hname : (c.heads.lookup n).name = n := c.heads.lookup_name n
  unfold Program.lookup at hbare hname
  cases hfind : c.heads.find? n with
  | none =>
    rw [hfind] at hbare
    cases hbare
  | some t =>
    rw [hfind, Option.getD_some] at hbare hname
    have ht := (Program.find?_eq_some_iff.mp hfind).1
    rw [types_heads hnodup] at ht
    obtain ⟨l, hl, rfl⟩ := List.mem_map.mp ht
    obtain ⟨hmethod, hknown⟩ := h.methods l hl m.bare hbare
    obtain ⟨d, hd, rfl⟩ := List.mem_map.mp hl
    obtain ⟨l, hl, heq⟩ := List.mem_map.mp hbare
    obtain ⟨howner, hreturns, _⟩ := link_spaceless h hindexed hd l hl
    rw [heq] at howner hreturns
    have htype : (d.link c c.scopes).type.name = d.name := d.head_name c c.scopes
    have hplain : Spaceless d.name := (h.types d.name (List.mem_map_of_mem hd)).spaceless
    refine ⟨⟨?_, hreturns, fun hparen => hmethod '(' hparen (by decide), hknown⟩, ?_⟩
    · exact howner ▸ hplain
    · exact howner.trans (htype.symm.trans hname)

/-! ## Targets -/

/-- The call site is recorded for a node of the body of a method, and `i` is what lowering found
    out about the call. -/
def Lowers (c : Catalog) (m : Method) (t : Tree) (s : CallSite) (i : Invocation) : Prop :=
  ∃ d ∈ c.declarations, ∃ l ∈ (d.link c c.scopes).methods, ∃ body,
    l.method = m.bare ∧ l.body = some body ∧ t ∈ nodesAll body ∧
      ∃ locals known position ordinal,
        ((c.place c.heads d m).callSite locals known position ordinal t).run.value = .ok (s, i)

/-- The receiver of a call site is a type around its caller, and no type further in has, itself or
    through its supertypes, a method for the call. -/
def Nearest (c : Catalog) (q : Program) (caller : Method) (s : CallSite) : Prop :=
  ∃ r before after, s.receiver = some r ∧
    c.scopes.around (some caller.owner) = before ++ r :: after ∧
    ∀ scope ∈ before, ∀ n, Search.Reaches q.supersOf scope n → ∀ k ∈ (q.lookup n).methods,
      ¬ Program.Fits s.name (s.args.map Argument.type) k

theorem PlainNames.exists_lowers (h : c.PlainNames) (hindexed : c.Indexed) {m : Method}
    (hm : m ∈ c.build.program.methods) {s : CallSite} (hs : s ∈ m.sites) :
    ∃ t i d, c.Lowers m t s i ∧ m.owner = d.name ∧ d ∈ c.declarations ∧
      (c.place c.heads d m).Stands t s i := by
  obtain ⟨type, htype, hm⟩ := List.mem_flatMap.mp hm
  rw [types_build hindexed.nodup] at htype
  obtain ⟨l, hl, rfl⟩ := List.mem_map.mp htype
  obtain ⟨d, hd, rfl⟩ := List.mem_map.mp hl
  rw [methods_lowered] at hm
  obtain ⟨n, hn, hlowered⟩ := List.mem_map.mp hm
  have hcode := d.code_link c c.scopes hn
  have hbare : n.method.bare = n.method := by rw [Method.bare, ← hcode]
  obtain ⟨howner, _, hparams⟩ := link_spaceless h hindexed hd n hn
  have hstands := lower_stands (h.place_spaceless hindexed hd n.method) n.method hparams
  rcases c.lowerMethod_cases c.heads d n with heq | ⟨body, code, hbody, hlower, heq⟩
  · -- A method without code has no call sites.
    obtain rfl : n.method = m := heq.symm.trans hlowered
    unfold Method.sites Method.instructions at hs
    rw [hcode, ite_self] at hs
    cases hs
  · obtain rfl : { n.method with code } = m := heq.symm.trans hlowered
    obtain ⟨instruction, hmem, hs⟩ := List.mem_flatMap.mp hs
    have hinstruction : instruction ∈ code := by
      unfold Method.instructions at hmem
      split at hmem
      · exact hmem
      · cases hmem
    obtain ⟨t, ht, i, hi⟩ := hstands body code hlower instruction hinstruction s hs
    exact ⟨t, i, d, ⟨d, hd, n, hn, body, hbare.symm, hbody, ht, hi.recorded⟩, howner, hd, hi⟩

/-- What lowering finds is what a search in the finished program brings. -/
theorem target_eq_found (hnodup : c.names.Nodup) {d : Declaration} {m : Method} {t : Tree}
    {s : CallSite} {i : Invocation} (hi : (c.place c.heads d m).Stands t s i) :
    i.target = (c.build.program.found s).map Method.bare := by
  obtain ⟨hname, hreceiver, _⟩ := hi.site
  have htarget : i.target = (c.heads.findMethod i.receiver i.name
      (s.args.map Argument.type)).value := hi.means.target
  rw [htarget, ← hname, ← hreceiver]
  exact Program.findMethod_bare (heads_eq_bare hnodup) _ _ _

theorem PlainNames.nearest (h : c.PlainNames) (hindexed : c.Indexed) {d : Declaration}
    (hd : d ∈ c.declarations) {m : Method} (hm : m.owner = d.name) {t : Tree} {s : CallSite}
    {i : Invocation} (hi : (c.place c.heads d m).Stands t s i) (ht : IsUnqualified t)
    (hsome : i.target.isSome) : c.Nearest c.build.program m s := by
  obtain ⟨hname, hreceiver, _⟩ := hi.site
  obtain ⟨r, hr, before, after, haround, hbefore⟩ := hi.means.unqualified ht hsome
  have hscopes : c.scopes.around (some d.name) = before ++ r :: after := haround
  refine ⟨r, before, after, hreceiver.trans hr, by rw [hm, hscopes], fun scope hscope => ?_⟩
  have hnone : (c.build.program.findMethod (some scope) s.name
      (s.args.map Argument.type)).value = none := by
    have hheads : (c.heads.findMethod (some scope) i.name
        (s.args.map Argument.type)).value = none := hbefore scope hscope
    rw [← hname, Program.findMethod_bare (heads_eq_bare hindexed.nodup)] at hheads
    exact Option.map_eq_none_iff.mp hheads
  have hreference : isReferenceName scope = true := by
    have hmem : scope ∈ c.scopes.around (some d.name) := by
      rw [hscopes]
      exact List.mem_append_left _ hscope
    have hplain := h.types scope (hindexed.mem_around (List.mem_map_of_mem hd) hmem)
    obtain ⟨o, simple, rfl⟩ := hindexed.compound_of_around hscopes scope hscope
    exact hplain.isReferenceName
  exact (Program.findMethod_eq_none_iff hreference).mp hnone

end Catalog

/-- The target of a call site of an indexed program is a known method if and only if overload
    resolution succeeded for the call. It is then the method that a search by name on the receiver
    brings; otherwise it is recorded as open, and nothing is called. A call by name alone that is
    resolved goes to the first type around its caller that has such a method. -/
theorem Indexer.sites_targeted (room : Nat) (files : List File)
    (h : (ofFiles room files).catalog.PlainNames) {m : Method}
    (hm : m ∈ (ofFiles room files).build.1.program.methods) {s : CallSite} (hs : s ∈ m.sites) :
    (ofFiles room files).build.1.program.Targeted s ∧
      ∃ t i, (ofFiles room files).catalog.Lowers m t s i ∧
        (((ofFiles room files).build.1.program.method? s.target).isSome ↔ i.target.isSome) ∧
        (IsUnqualified t → i.target.isSome →
          (ofFiles room files).catalog.Nearest (ofFiles room files).build.1.program m s) := by
  rw [build_ofFiles] at hm ⊢
  have hindexed := indexed_ofFiles room files
  generalize (ofFiles room files).catalog = c at h hm hindexed ⊢
  obtain ⟨t, i, d, hlowers, howner, hd, hi⟩ := h.exists_lowers hindexed hm hs
  have hreadable := h.readable hindexed
  have hfound := Catalog.target_eq_found hindexed.nodup hi
  obtain ⟨hname, hreceiver, htarget⟩ := hi.site
  have hclear : ∀ r ∈ s.receiver, Spaceless r := hreceiver ▸ hi.means.receiver
  have hnearest := h.nearest hindexed hd howner hi
  cases hq : c.build.program.found s with
  | none =>
    rw [hq] at hfound
    have hopen : s.target = s.openTarget := by
      rw [htarget, Place.targetSignature, hfound, CallSite.openTarget, hname, hreceiver]
      rfl
    obtain ⟨htargeted, hnone⟩ := Program.targeted_of_none hreadable hclear hq hopen
    exact ⟨htargeted, t, i, hlowers, by rw [hnone, hfound]; rfl, hnearest⟩
  | some f =>
    rw [hq] at hfound
    have hsignature : s.target = f.signature := by
      rw [htarget, Place.targetSignature, hfound]
      exact f.signature_bare
    obtain ⟨htargeted, hsome⟩ := Program.targeted_of_some hreadable hq hsignature
    exact ⟨htargeted, t, i, hlowers, by rw [hsome, hfound]; simp, hnearest⟩

/-! ## A call of a method of the type around -/

/-- `class A { void f() {} class B { void g() { f(); h(); } } }` -/
def nestedFile : File where
  path := some "A.java"
  text := "class A { void f() {} class B { void g() { f(); h(); } } }".toUTF8.data
  tree := .node ⟨.other "program", true, 0, 0, 58, none⟩
    [.node ⟨.classDeclaration, true, 1, 0, 58, none⟩
       [.node ⟨.identifier, true, 3, 6, 7, some .name⟩ [],
        .node ⟨.classBody, true, 4, 8, 58, some .body⟩
          [.node ⟨.methodDeclaration, true, 6, 10, 21, none⟩
             [.node ⟨.other "void_type", true, 7, 10, 14, some .type⟩ [],
              .node ⟨.identifier, true, 8, 15, 16, some .name⟩ [],
              .node ⟨.other "formal_parameters", true, 9, 16, 18, some .parameters⟩ [],
              .node ⟨.block, true, 12, 19, 21, some .body⟩ []],
           .node ⟨.classDeclaration, true, 15, 22, 56, none⟩
             [.node ⟨.identifier, true, 17, 28, 29, some .name⟩ [],
              .node ⟨.classBody, true, 18, 30, 56, some .body⟩
                [.node ⟨.methodDeclaration, true, 20, 32, 54, none⟩
                   [.node ⟨.other "void_type", true, 21, 32, 36, some .type⟩ [],
                    .node ⟨.identifier, true, 22, 37, 38, some .name⟩ [],
                    .node ⟨.other "formal_parameters", true, 23, 38, 40, some .parameters⟩ [],
                    .node ⟨.block, true, 26, 41, 54, some .body⟩
                      [.node ⟨.other "expression_statement", true, 28, 43, 47, none⟩
                         [.node ⟨.methodInvocation, true, 29, 43, 46, none⟩
                            [.node ⟨.identifier, true, 30, 43, 44, some .name⟩ [],
                             .node ⟨.other "argument_list", true, 31, 44, 46, some .arguments⟩ []]],
                       .node ⟨.other "expression_statement", true, 35, 48, 52, none⟩
                         [.node ⟨.methodInvocation, true, 36, 48, 51, none⟩
                            [.node ⟨.identifier, true, 37, 48, 49, some .name⟩ [],
                             .node ⟨.other "argument_list", true, 38, 49, 51, some .arguments⟩ []]]]]]]]]]

theorem Indexer.sites_targeted_nested :
    (ofFiles 100 [nestedFile]).catalog.PlainNames ∧
      ∃ m ∈ (ofFiles 100 [nestedFile]).build.1.program.methods, ∃ s ∈ m.sites,
        s.target = "<A: void f()>" ∧ (ofFiles 100 [nestedFile]).build.1.program.Targeted s ∧
          ∃ t i, (ofFiles 100 [nestedFile]).catalog.Lowers m t s i ∧
            (((ofFiles 100 [nestedFile]).build.1.program.method? s.target).isSome ↔
              i.target.isSome) ∧
            (IsUnqualified t → i.target.isSome →
              (ofFiles 100 [nestedFile]).catalog.Nearest
                (ofFiles 100 [nestedFile]).build.1.program m s) := by
  have hplain : (ofFiles 100 [nestedFile]).catalog.PlainNames := by decide +kernel
  have hsite : ∃ m ∈ (ofFiles 100 [nestedFile]).build.1.program.methods, ∃ s ∈ m.sites,
      s.target = "<A: void f()>" := by decide +kernel
  obtain ⟨m, hm, s, hs, htarget⟩ := hsite
  exact ⟨hplain, m, hm, s, hs, htarget, sites_targeted 100 [nestedFile] hplain hm hs⟩

end Index
end ServiceReach

import ServiceReach.Proofs.Index.Depth
import ServiceReach.Proofs.Index.Spaceless
import ServiceReach.Proofs.Model.Outcome
import ServiceReach.Proofs.Model.Overload

/-
  What lowering finds out about a call. However the receiver of a call is found, its target is the
  method that a search by name on the receiver brings, and the receiver is a type name without a
  space (`invocation_means`). A call without receiver goes to the first type around the body on which
  the search brings something.
-/

namespace ServiceReach

open Text

/-! ## Programs -/

/-- The types that a declaration names for its superclass, its fields and its results hold no
    space. -/
structure TypeDecl.Spaceless (t : TypeDecl) : Prop where
  superclass : ∀ s ∈ t.superclass, Text.Spaceless s
  fields : ∀ f ∈ t.fields, Text.Spaceless f.2
  returns : ∀ m ∈ t.methods, Text.Spaceless m.returnType

namespace Program

variable {p : Program}

/-- The types that the declarations name hold no space. -/
def Spaceless (p : Program) : Prop :=
  ∀ t ∈ p.types, t.Spaceless

theorem Spaceless.lookup (h : p.Spaceless) (n : String) : (p.lookup n).Spaceless := by
  unfold Program.lookup
  cases hfind : p.find? n with
  | none =>
    refine ⟨fun s hs => ?_, fun f hf => ?_, fun m hm => ?_⟩
    · cases hs
    · cases hf
    · cases hm
  | some t => exact h t (mem_types_of_find hfind)

theorem Spaceless.fieldType (h : p.Spaceless) {type : Option String} {field r : String}
    (hr : (p.fieldType type field).value = some r) : Text.Spaceless r := by
  obtain ⟨n, hn⟩ := fieldType_eq_some hr
  exact (h.lookup n).fields (field, r) (Index.mem_of_lookup hn)

theorem Spaceless.findMethod (h : p.Spaceless) {type : Option String} {name : String}
    {args : List (Option String)} {m : Method}
    (hm : (p.findMethod type name args).value = some m) : Text.Spaceless m.returnType := by
  obtain ⟨_, _, n, _, _, hmem⟩ := findMethod_eq_some hm
  exact (h.lookup n).returns m hmem

end Program

namespace Index

open Source Trail

/-- The type holds no space, if it is known. -/
def Clear (type : Option String) : Prop :=
  ∀ s ∈ type, Spaceless s

theorem clear_none : Clear none :=
  fun _ hs => by cases hs

theorem clear_some {s : String} (h : Spaceless s) : Clear (some s) := by
  intro r hr
  cases hr
  exact h

theorem Clear.present {type : Option String} (h : Clear type) : Clear (present? type) :=
  fun s hs => h s (Option.filter_eq_some_iff.mp hs).1

theorem Clear.or {a b : Option String} (ha : Clear a) (hb : Clear b) : Clear (a.or b) := by
  cases a with
  | none => exact hb
  | some s => exact ha

/-- Variables of types without a space. -/
def Locals.Clear (locals : Locals) : Prop :=
  ∀ e ∈ locals, Index.Clear e.2

/-- Resolved calls of methods whose results have types without a space. -/
def Resolved.Clear (known : Resolved) : Prop :=
  ∀ e ∈ known, ∀ m ∈ e.2.target, Spaceless m.returnType

/-- The names in the header and around the body, and those in the declarations hold no space. -/
structure Place.Spaceless (p : Place) : Prop where
  header : p.entry.header.Spaceless p.scopes
  owner : Text.Spaceless p.owner
  around : ∀ n ∈ p.around, Text.Spaceless n
  anonymous : ∀ x ∈ p.anonymous, Text.Spaceless x.2
  program : p.program.Spaceless

namespace Place.Spaceless

variable {p : Place} {locals : Locals} {known : Resolved}

/-! ## Types -/

theorem resolve (h : p.Spaceless) (raw : String) : Clear (p.resolve raw) :=
  fun _ hr => Scopes.resolve_spaceless h.header h.around hr

theorem resolveNode (h : p.Spaceless) (t : Option Tree) : Clear (p.resolveNode t) := by
  cases t with
  | none => exact clear_none
  | some t => exact h.resolve _

theorem ownSuperclass (h : p.Spaceless) : Clear p.ownSuperclass := by
  intro s hs
  obtain ⟨t, ht, hs⟩ := Option.bind_eq_some_iff.mp hs
  exact (h.program t (Program.mem_types_of_get ht)).superclass s hs

theorem createdType (h : p.Spaceless) (t : Tree) : Clear (p.createdType t) := by
  have hnamed := h.resolveNode (t.field? .type)
  unfold Place.createdType
  dsimp only
  split
  · split
    · rename_i name hname
      exact clear_some (h.anonymous _ (mem_of_lookup hname))
    · exact hnamed
  · exact hnamed

theorem typeReference (h : p.Spaceless) (t : Tree) : Clear (p.typeReference t) := by
  have htext : ∀ text : String,
      Clear (if (Text.split '.' text).any Text.startsUpper then p.resolve text else none) := by
    intro text
    split
    · exact h.resolve text
    · exact clear_none
  unfold Place.typeReference
  split
  · exact htext _
  · exact htext _
  · exact htext _
  · exact clear_none

theorem variableType (h : p.Spaceless) (hlocals : locals.Clear) (name : String) :
    Clear (p.variableType locals name).value := by
  unfold Place.variableType
  split
  · rename_i type htype
    exact hlocals (name, type) (mem_of_lookup htype)
  · intro s hs
    have haround : ∀ scopes : List String, ∀ found,
        (firstAround (fun scope => p.program.fieldType (some scope) name) scopes).value = some found →
          Text.Spaceless found.2 := by
      intro scopes
      induction scopes with
      | nil => exact fun found hfound => nomatch hfound
      | cons scope scopes ih =>
        intro found hfound
        rw [firstAround, Trail.value_bind] at hfound
        cases hfield : (p.program.fieldType (some scope) name).value with
        | none =>
          rw [hfield] at hfound
          exact ih found hfound
        | some type =>
          rw [hfield] at hfound
          cases hfound
          exact h.program.fieldType hfield
    obtain ⟨found, hfound, rfl⟩ := Option.map_eq_some_iff.mp hs
    exact haround p.around found hfound

theorem memberType (h : p.Spaceless) (type : Option String) (field : String) :
    Clear (p.memberType type field).value := by
  unfold Place.memberType
  split
  · exact clear_none
  · split
    · change Clear (if _ then _ else _)
      split
      · exact clear_some (by decide)
      · exact clear_none
    · exact fun s hs => h.program.fieldType hs

end Place.Spaceless

theorem itemType_clear {type : Option String} (h : Clear type) : Clear (Place.itemType type) := by
  unfold Place.itemType
  split
  · exact clear_none
  · rename_i t ht
    split
    · exact clear_some ((h.present t ht).dropLast 2)
    · exact clear_none

theorem joinType_clear {left : Option String} (right : Option String) (h : Clear left) :
    Clear (Place.joinType left right) := by
  unfold Place.joinType
  split
  · exact clear_some (by decide)
  · exact h

theorem literalType_clear {kind : Kind} {type : Option String}
    (h : literalType? kind = some type) : Clear type := by
  unfold literalType? at h
  unfold Clear
  split at h
  all_goals cases h
  all_goals decide

variable {operand : Tree → Typing (Option String)}

theorem typeOfOption_clear (h : ∀ u, Ensures (operand u) Clear) (o : Option Tree) :
    Ensures (Place.typeOfOption operand o) Clear := by
  cases o with
  | none => exact Ensures.pure clear_none
  | some u => exact h u

theorem foldSpine_clear (h : ∀ u, Ensures (operand u) Clear)
    (above : List (String × Option Tree)) {type : Option String} (htype : Clear type) :
    Ensures (Place.foldSpine operand above type) Clear := by
  induction above generalizing type with
  | nil => exact Ensures.pure htype
  | cons e above ih =>
    obtain ⟨op, right⟩ := e
    unfold Place.foldSpine
    split
    · cases right with
      | none => exact ih htype
      | some u => exact (h u).bind fun other _ => ih (joinType_clear other htype)
    · exact ih htype

namespace Place.Spaceless

variable {p : Place} {locals : Locals} {known : Resolved}

theorem typeWith (h : p.Spaceless) (hlocals : locals.Clear) (hknown : known.Clear)
    (hoperand : ∀ u, Ensures (operand u) Clear) (t : Tree) :
    Ensures (p.typeWith locals known operand t) Clear := by
  unfold Place.typeWith
  split
  · rename_i type htype
    exact Ensures.pure (literalType_clear htype)
  · split
    · exact Ensures.lift (h.variableType hlocals _)
    · exact Ensures.pure (clear_some h.owner)
    · exact typeOfOption_clear hoperand _
    · exact Ensures.pure (h.resolveNode _)
    · exact Ensures.pure (h.createdType t)
    · refine Ensures.pure fun s hs => ?_
      obtain ⟨r, hr, rfl⟩ := Option.map_eq_some_iff.mp hs
      exact ((h.resolveNode _).present r hr).append (by decide)
    · refine Ensures.pure fun s hs => ?_
      obtain ⟨m, hm, rfl⟩ := Option.map_eq_some_iff.mp hs
      obtain ⟨i, hi, hm⟩ := Option.bind_eq_some_iff.mp hm
      exact hknown (t.id, i) (mem_of_lookup hi) m hm
    · split
      · exact Ensures.pure clear_none
      · split
        · exact Ensures.lift (h.memberType _ _)
        · exact Ensures.lift (h.memberType _ _)
        · refine (hoperand _).bind fun type _ => ?_
          split
          · exact Ensures.lift (h.memberType _ _)
          · exact Ensures.lift (h.memberType _ _)
    · exact (typeOfOption_clear hoperand _).bind fun array harray =>
        Ensures.pure (itemType_clear harray)
    · refine (typeOfOption_clear hoperand _).bind fun type htype => ?_
      split
      · rename_i found hfound
        exact Ensures.pure (clear_some (htype.present found hfound))
      · exact typeOfOption_clear hoperand _
    · exact typeOfOption_clear hoperand _
    · exact Ensures.pure (clear_some (by decide))
    · exact Ensures.pure (clear_some (by decide))
    · generalize leftSpine t.size (some t) [] = spine
      obtain ⟨operators, bottom⟩ := spine
      have hfold : ∀ type, Clear type → Ensures (foldSpine operand operators type) Clear :=
        fun type htype => foldSpine_clear hoperand operators htype
      cases bottom with
      | missing => exact (Ensures.pure clear_none).bind hfold
      | comparison => exact (Ensures.pure (clear_some (by decide))).bind hfold
      | operand u => exact (hoperand u).bind hfold
    · exact Ensures.pure clear_none

/-- The type of an expression holds no space. -/
theorem typeOf (h : p.Spaceless) (hlocals : locals.Clear) (hknown : known.Clear) (t : Tree) :
    Ensures (p.typeOf locals known t) Clear := by
  have hrooms : ∀ (room : Nat) (u : Tree), Ensures (p.typeOfAt locals known room u) Clear := by
    intro room
    induction room using Nat.strongRecOn with
    | ind room ih =>
      intro u
      have hpos := Tree.ownFrames_pos u.kind
      rw [typeOfAt_eq]
      split
      · exact fun type htype => by cases htype
      · exact h.typeWith hlocals hknown (ih _ (by omega)) u
  exact hrooms p.room t

end Place.Spaceless

/-! ## Calls -/

/-- A call of a method by its name alone. -/
def IsUnqualified (t : Tree) : Prop :=
  t.kind = .methodInvocation ∧ t.field? .object = none

/-- The types around a body before `r` bring no method for a call, and `r` is one of them. -/
def Place.FirstAround (p : Place) (name : String) (args : List (Option String)) (r : String) :
    Prop :=
  ∃ before after, p.around = before ++ r :: after ∧
    ∀ scope ∈ before, (p.program.findMethod (some scope) name args).value = none

/-- What lowering finds out about a call with arguments of some types. -/
structure Place.Means (p : Place) (t : Tree) (args : List (Option String)) (i : Invocation) :
    Prop where
  target : i.target = (p.program.findMethod i.receiver i.name args).value
  receiver : Clear i.receiver
  /-- A call by name alone goes to the first type around the body that has such a method. -/
  unqualified : IsUnqualified t → i.target.isSome →
    ∃ r, i.receiver = some r ∧ p.FirstAround i.name args r

namespace Place

variable {p : Place} {locals : Locals} {known : Resolved}

theorem firstAround_eq_some {β : Type} {ask : String → Trail (Option β)} {scopes : List String}
    {scope : String} {b : β} (h : (firstAround ask scopes).value = some (scope, b)) :
    (ask scope).value = some b ∧ ∃ before after, scopes = before ++ scope :: after ∧
      ∀ s ∈ before, (ask s).value = none := by
  induction scopes with
  | nil => cases h
  | cons s scopes ih =>
    rw [firstAround, Trail.value_bind] at h
    cases hs : (ask s).value with
    | none =>
      rw [hs] at h
      obtain ⟨hscope, before, after, hscopes, hbefore⟩ := ih h
      refine ⟨hscope, s :: before, after, by rw [hscopes]; rfl, ?_⟩
      exact List.forall_mem_cons.mpr ⟨hs, hbefore⟩
    | some b' =>
      rw [hs] at h
      cases h
      exact ⟨hs, [], scopes, rfl, fun _ hmem => absurd hmem List.not_mem_nil⟩

theorem firstAround_eq_none {β : Type} {ask : String → Trail (Option β)} {scopes : List String}
    (h : (firstAround ask scopes).value = none) : ∀ s ∈ scopes, (ask s).value = none := by
  induction scopes with
  | nil => exact fun _ hmem => absurd hmem List.not_mem_nil
  | cons s scopes ih =>
    rw [firstAround, Trail.value_bind] at h
    cases hs : (ask s).value with
    | none =>
      rw [hs] at h
      exact List.forall_mem_cons.mpr ⟨hs, ih h⟩
    | some b =>
      rw [hs] at h
      cases h

/-- A search on a type that is not known brings nothing. -/
theorem findMethod_of_not_present (q : Program) {type : Option String} (h : present? type = none)
    (name : String) (args : List (Option String)) : (q.findMethod type name args).value = none := by
  have hfilter : type.filter isReferenceName = none := by
    cases type with
    | none => rfl
    | some s =>
      rw [present?, Option.filter_some] at h
      split at h
      · cases h
      · rename_i hempty
        have hs : s.isEmpty = true := by simpa using hempty
        rw [Option.filter_some, if_neg]
        simp [isReferenceName, hs]
  rw [Program.value_findMethod, hfilter, Option.bind_none]

theorem value_invokeOn (p : Place) (receiver : Option String) (dispatch : Dispatch) (name : String)
    (args : List (Option String)) : ∃ d, (p.invokeOn receiver dispatch name args).value =
      ⟨receiver, d, (p.program.findMethod receiver name args).value, name⟩ := by
  unfold invokeOn
  cases hpresent : present? receiver with
  | none =>
    rw [findMethod_of_not_present p.program hpresent name args]
    exact ⟨_, rfl⟩
  | some type =>
    have htype : receiver = some type := (Option.filter_eq_some_iff.mp hpresent).1
    rw [htype]
    exact ⟨_, rfl⟩

theorem invokeOn_means (p : Place) {t : Tree} (ht : ¬ IsUnqualified t) {receiver : Option String}
    (hreceiver : Clear receiver) (dispatch : Dispatch) (name : String)
    (args : List (Option String)) :
    p.Means t args (p.invokeOn receiver dispatch name args).value := by
  obtain ⟨d, hvalue⟩ := p.value_invokeOn receiver dispatch name args
  rw [hvalue]
  exact ⟨rfl, hreceiver, fun hunqualified => absurd hunqualified ht⟩

theorem invokeUnqualified_means (h : p.Spaceless) (t : Tree) (name : String)
    (args : List (Option String)) : p.Means t args (p.invokeUnqualified name args).value := by
  unfold invokeUnqualified
  rw [Trail.value_bind]
  cases hfound : (firstAround (fun scope => p.program.findMethod (some scope) name args)
      p.around).value with
  | none =>
    refine ⟨?_, clear_some h.owner, fun _ hsome => nomatch hsome⟩
    have hnone := firstAround_eq_none hfound
    have howner : (p.program.findMethod (some p.owner) name args).value = none := by
      cases hpresent : present? (some p.owner) with
      | none => exact findMethod_of_not_present p.program hpresent name args
      | some o =>
        have ho : p.owner = o := Option.some.inj (Option.filter_eq_some_iff.mp hpresent).1
        refine hnone p.owner ?_
        unfold around Scopes.around Scopes.aroundFrom
        rw [hpresent, ho]
        exact List.mem_cons_self
    exact howner.symm
  | some found =>
    obtain ⟨scope, m⟩ := found
    obtain ⟨hscope, before, after, haround, hbefore⟩ := firstAround_eq_some hfound
    refine ⟨hscope.symm, clear_some (h.around scope ?_), fun _ _ =>
      ⟨scope, rfl, before, after, haround, hbefore⟩⟩
    rw [haround]
    exact List.mem_append_right before List.mem_cons_self

/-- However the receiver is found, the target is what a search by name on it brings. -/
theorem invocation_means (h : p.Spaceless) (hlocals : locals.Clear) (hknown : known.Clear)
    (t : Tree) (args : List (Option String)) :
    Ensures (p.invocation locals known t args) (p.Means t args) := by
  unfold invocation
  split
  · rename_i hkind
    have ht : ¬ IsUnqualified t := fun hu => by simp [hu.1] at hkind
    exact Ensures.lift (p.invokeOn_means ht (h.createdType t) _ _ _)
  · rename_i hkind
    have ht : ¬ IsUnqualified t := fun hu => by simp [hu.1] at hkind
    split
    · exact Ensures.lift (p.invokeOn_means ht (clear_some h.owner) _ _ _)
    · exact Ensures.lift (p.invokeOn_means ht h.ownSuperclass _ _ _)
  · dsimp only
    split
    · exact Ensures.lift (invokeUnqualified_means h t _ args)
    · rename_i object hobject
      have ht : ¬ IsUnqualified t := fun hu => by simp [hu.2] at hobject
      split
      · exact Ensures.lift (p.invokeOn_means ht h.ownSuperclass _ _ _)
      · refine (h.typeOf hlocals hknown object).bind fun type htype => ?_
        split
        · exact Ensures.lift (p.invokeOn_means ht htype _ _ _)
        · split
          · rename_i r hr
            exact Ensures.lift (p.invokeOn_means ht (hr ▸ h.typeReference object) _ _ _)
          · exact Ensures.lift (p.invokeOn_means ht clear_none _ _ _)

end Place
end Index
end ServiceReach

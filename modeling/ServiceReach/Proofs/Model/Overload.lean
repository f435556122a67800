import ServiceReach.Proofs.Model.Hierarchy
import ServiceReach.Proofs.Model.Program
import ServiceReach.Proofs.Model.Search

/-
  What a call by name means. The search for a method goes over exactly the types above the one that
  it starts from (`mem_above_iff`): it answers with a method of that name that takes the arguments,
  declared by one of them (`findMethod_eq_some`), and has no answer only if none of them has such a
  method (`findMethod_eq_none_iff`). The code of the methods does not matter (`findMethod_bare`).
-/

namespace ServiceReach

/-! ## Code left out -/

/-- The method without its code. -/
def Method.bare (m : Method) : Method :=
  { m with code := [] }

/-- The type with the code of its methods left out. -/
def TypeDecl.bare (t : TypeDecl) : TypeDecl :=
  { t with methods := t.methods.map Method.bare }

@[simp]
theorem Method.signature_bare (m : Method) : m.bare.signature = m.signature := rfl

namespace Program

variable {p q : Program} {name : String} {args : List (Option String)}

/-! ## The types above a type -/

/-- The names that the program has for parents of a name. -/
def supersOf (p : Program) (n : String) : List String :=
  (p.lookup n).supers

/-- A type, its supertypes, and so on. -/
def above (p : Program) (r : String) : List String :=
  Search.reached p.supersOf (p.parentCount (p.lookup r) + 1) r

theorem typeOn_lookup (p : Program) (r n : String) : p.typeOn (p.lookup r) n = p.lookup n := by
  unfold typeOn
  rw [lookup_name]
  split
  · rename_i hn
    rw [beq_iff_eq.mp hn]
  · rfl

theorem types_supertypes (p : Program) (r : String) :
    (p.supertypes (p.lookup r)).map Visit.type = (p.above r).map p.lookup := by
  unfold supertypes above Search.reached
  simp only [typeOn_lookup, lookup_name, List.map_map]
  rfl

/-- All names that can be met above a type. -/
def namesAbove (p : Program) (r : String) : List String :=
  r :: (p.lookup r :: p.types).flatMap TypeDecl.supers

theorem length_namesAbove_le (p : Program) (r : String) :
    (p.namesAbove r).length ≤ p.parentCount (p.lookup r) + 1 := by
  have hsupers : ∀ types : List TypeDecl,
      (types.flatMap TypeDecl.supers).length ≤ (types.flatMap TypeDecl.parents).length := by
    intro types
    induction types with
    | nil => simp
    | cons t types ih =>
      have ht : t.supers.length ≤ t.parents.length := List.length_filter_le _ _
      simp only [List.flatMap_cons, List.length_append]
      omega
  have hall := hsupers (p.lookup r :: p.types)
  unfold namesAbove parentCount
  rw [List.length_cons]
  omega

theorem supersOf_subset_namesAbove {r n k : String} (hk : k ∈ p.supersOf n) :
    k ∈ p.namesAbove r := by
  unfold supersOf lookup at hk
  cases hfind : p.find? n with
  | none =>
    rw [hfind] at hk
    cases hk
  | some t =>
    rw [hfind] at hk
    have ht : t ∈ p.types := mem_types_of_find hfind
    refine List.mem_cons_of_mem r (List.mem_flatMap.mpr ⟨t, List.mem_cons_of_mem _ ht, hk⟩)

/-- The walk over the supertypes meets all of them. -/
theorem mem_above_iff {r n : String} : n ∈ p.above r ↔ Search.Reaches p.supersOf r n :=
  Search.mem_reached_iff (fun _ _ _ hk => supersOf_subset_namesAbove hk) (p.length_namesAbove_le r)
    List.mem_cons_self

/-! ## One type -/

theorem bestMatch_eq_none_iff {ms : List Method} : bestMatch args ms = none ↔ ms = [] := by
  cases ms with
  | nil => simp [bestMatch]
  | cons m ms => simp [bestMatch]

theorem bestMatch_mem {ms : List Method} {m : Method} (h : bestMatch args ms = some m) :
    m ∈ ms := by
  have hfold : ∀ (ms : List Method) (best : Method),
      ms.foldl (fun best n => if best.score args < n.score args then n else best) best ∈
        best :: ms := by
    intro ms
    induction ms with
    | nil => exact fun best => List.mem_cons_self
    | cons n ms ih =>
      intro best
      rw [List.foldl_cons]
      split
      · exact List.mem_cons_of_mem best (ih n)
      · rcases List.mem_cons.mp (ih best) with heq | hmem
        · rw [heq]
          exact List.mem_cons_self
        · exact List.mem_cons_of_mem best (List.mem_cons_of_mem n hmem)
  cases ms with
  | nil => cases h
  | cons n ms =>
    cases h
    exact hfold ms n

/-- The method has the name and takes that many arguments. -/
def Fits (name : String) (args : List (Option String)) (m : Method) : Prop :=
  m.name = name ∧ m.accepts args.length = true

theorem mem_candidates {t : TypeDecl} {m : Method} :
    m ∈ (t.methods.filter fun m => m.name == name && m.accepts args.length) ↔
      m ∈ t.methods ∧ Fits name args m := by
  rw [List.mem_filter, Bool.and_eq_true_iff, beq_iff_eq]
  rfl

theorem overload_eq_some {t : TypeDecl} {m : Method} (h : overload? name args t = some m) :
    m ∈ t.methods ∧ Fits name args m :=
  mem_candidates.mp (bestMatch_mem h)

theorem overload_eq_none_iff {t : TypeDecl} :
    overload? name args t = none ↔ ∀ m ∈ t.methods, ¬ Fits name args m := by
  unfold overload?
  rw [bestMatch_eq_none_iff, List.eq_nil_iff_forall_not_mem]
  simp only [mem_candidates, not_and]

/-! ## All types above a type -/

/-- The first answer at or above a type. -/
theorem value_firstAbove {β : Type} (p : Program) (answer : TypeDecl → Option β)
    (type : Option String) :
    (do
      match ← p.resolve type with
      | none => pure none
      | some t => p.firstOn answer (p.supertypes t) : Trail (Option β)).value =
      (type.filter isReferenceName).bind fun r =>
        (p.above r).findSome? fun n => answer (p.lookup n) := by
  unfold resolve
  rw [Trail.value_bind]
  cases type.filter isReferenceName with
  | none => rfl
  | some r =>
    dsimp only
    rw [value_firstOn, types_supertypes, List.findSome?_map]
    rfl

theorem value_findMethod (p : Program) (type : Option String) (name : String)
    (args : List (Option String)) :
    (p.findMethod type name args).value = (type.filter isReferenceName).bind fun r =>
      (p.above r).findSome? fun n => overload? name args (p.lookup n) :=
  p.value_firstAbove (overload? name args) type

theorem fieldType_eq_some {type : Option String} {field r : String}
    (h : (p.fieldType type field).value = some r) :
    ∃ n, (p.lookup n).fields.lookup field = some r := by
  have hvalue : (p.fieldType type field).value = _ :=
    p.value_firstAbove (fun u => u.fields.lookup field) type
  rw [hvalue] at h
  obtain ⟨_, _, h⟩ := Option.bind_eq_some_iff.mp h
  obtain ⟨n, _, hn⟩ := List.exists_of_findSome?_eq_some h
  exact ⟨n, hn⟩

/-- The method that a call means is declared at or above the receiver and fits the call. -/
theorem findMethod_eq_some {type : Option String} {m : Method}
    (h : (p.findMethod type name args).value = some m) :
    Fits name args m ∧ ∃ r n, type = some r ∧ Search.Reaches p.supersOf r n ∧
      m ∈ (p.lookup n).methods := by
  rw [value_findMethod] at h
  obtain ⟨r, hr, h⟩ := Option.bind_eq_some_iff.mp h
  obtain ⟨n, hn, hm⟩ := List.exists_of_findSome?_eq_some h
  obtain ⟨hmem, hfits⟩ := overload_eq_some hm
  exact ⟨hfits, r, n, (Option.filter_eq_some_iff.mp hr).1, mem_above_iff.mp hn, hmem⟩

/-- A call means no method of a type only if nothing at or above it fits. -/
theorem findMethod_eq_none_iff {r : String} (hr : isReferenceName r = true) :
    (p.findMethod (some r) name args).value = none ↔
      ∀ n, Search.Reaches p.supersOf r n → ∀ m ∈ (p.lookup n).methods, ¬ Fits name args m := by
  rw [value_findMethod, Option.filter_some, if_pos hr, Option.bind_some, List.findSome?_eq_none_iff]
  simp only [mem_above_iff, overload_eq_none_iff]

/-! ## Programs that differ in code only -/

theorem bestMatch_bare (args : List (Option String)) (ms : List Method) :
    bestMatch args (ms.map Method.bare) = (bestMatch args ms).map Method.bare := by
  have hfold : ∀ (ms : List Method) (best : Method),
      (ms.map Method.bare).foldl (fun best n => if best.score args < n.score args then n else best)
          best.bare =
        (ms.foldl (fun best n => if best.score args < n.score args then n else best) best).bare := by
    intro ms
    induction ms with
    | nil => exact fun best => rfl
    | cons n ms ih =>
      intro best
      rw [List.map_cons, List.foldl_cons, List.foldl_cons]
      have hscore : ∀ m : Method, m.bare.score args = m.score args := fun m => rfl
      rw [hscore, hscore]
      split
      · exact ih n
      · exact ih best
  cases ms with
  | nil => rfl
  | cons m ms => exact congrArg some (hfold ms m)

theorem overload_bare (name : String) (args : List (Option String)) (t : TypeDecl) :
    overload? name args t.bare = (overload? name args t).map Method.bare := by
  unfold overload?
  rw [← bestMatch_bare, TypeDecl.bare, List.filter_map]
  rfl

section Bare

variable (h : q.types = p.types.map TypeDecl.bare)

include h

theorem lookup_bare (n : String) : q.lookup n = (p.lookup n).bare := by
  unfold lookup find?
  rw [h, List.find?_map]
  have hname : ((fun t : TypeDecl => t.name == n) ∘ TypeDecl.bare) = fun t => t.name == n := rfl
  rw [hname]
  cases p.types.find? fun t => t.name == n with
  | none => rfl
  | some t => rfl

theorem above_bare (r : String) : q.above r = p.above r := by
  have hsupers : q.supersOf = p.supersOf := by
    funext n
    unfold supersOf
    rw [lookup_bare h]
    rfl
  have hcount : q.parentCount (q.lookup r) = p.parentCount (p.lookup r) := by
    unfold parentCount
    rw [lookup_bare h, h, ← List.map_cons, List.flatMap_map]
    rfl
  unfold above
  rw [hsupers, hcount]

/-- A call means the same method, whatever the code of the methods. -/
theorem findMethod_bare (type : Option String) (name : String) (args : List (Option String)) :
    (q.findMethod type name args).value =
      (p.findMethod type name args).value.map Method.bare := by
  rw [value_findMethod, value_findMethod]
  cases type.filter isReferenceName with
  | none => rfl
  | some r =>
    simp only [Option.bind_some, above_bare h, lookup_bare h, overload_bare]
    induction p.above r with
    | nil => rfl
    | cons n names ih =>
      rw [List.findSome?_cons, List.findSome?_cons]
      cases overload? name args (p.lookup n) with
      | none => exact ih
      | some m => rfl

end Bare

end Program
end ServiceReach

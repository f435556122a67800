import ServiceReach.Model.Hierarchy

/-
  What the walks over the type hierarchy can bring. A search along a walk answers with the first
  answer there is; the types on a superclass chain are the one it starts from and types that the
  program looks up, so an implementation is a method of the program; a breadth-first search visits
  no more nodes than it is given rounds.
-/

namespace ServiceReach

theorem Search.length_visitsFrom_le {α : Type} [DecidableEq α] (next : α → List α) (fuel : Nat)
    (seen queue : List α) : (visitsFrom next fuel seen queue).length ≤ fuel := by
  induction fuel generalizing seen queue with
  | zero => exact Nat.le_refl _
  | succ fuel ih =>
    cases queue with
    | nil => exact Nat.zero_le _
    | cons n queue =>
      rw [visitsFrom, List.length_cons]
      exact Nat.succ_le_succ (ih _ _)

namespace Program

variable {p : Program}

theorem value_firstOn {β : Type} (p : Program) (answer : TypeDecl → Option β)
    (visits : List Visit) :
    (p.firstOn answer visits).value = (visits.map Visit.type).findSome? answer := by
  induction visits with
  | nil => rfl
  | cons v visits ih =>
    rw [firstOn, List.map_cons, List.findSome?_cons]
    cases answer v.type with
    | none => exact ih
    | some b => rfl

/-! ## Methods of the program -/

theorem mem_methods_of_mem {t : TypeDecl} {m : Method} (ht : t ∈ p.types) (hm : m ∈ t.methods) :
    m ∈ p.methods :=
  List.mem_flatMap.mpr ⟨t, ht, hm⟩

theorem mem_types_of_find {name : String} {t : TypeDecl} (h : p.find? name = some t) :
    t ∈ p.types :=
  List.mem_of_find?_eq_some h

theorem mem_types_of_get {name : Option String} {t : TypeDecl} (h : p.get? name = some t) :
    t ∈ p.types := by
  obtain ⟨n, _, hn⟩ := Option.bind_eq_some_iff.mp h
  exact mem_types_of_find hn

theorem mem_methods_of_method {signature : String} {m : Method}
    (h : p.method? signature = some m) : m ∈ p.methods :=
  List.mem_of_find?_eq_some h

theorem mem_methods_of_lookup {name : String} {m : Method} (h : m ∈ (p.lookup name).methods) :
    m ∈ p.methods := by
  unfold lookup at h
  cases hf : p.find? name with
  | none =>
    rw [hf] at h
    cases h
  | some t =>
    rw [hf] at h
    exact mem_methods_of_mem (mem_types_of_find hf) h

/-! ## The superclass chain -/

theorem mem_chainFrom {fuel : Nat} {seen : List String} {t : TypeDecl} {v : Visit}
    (h : v ∈ p.chainFrom fuel seen t) : v.type = t ∨ ∃ n, v.type = p.lookup n := by
  induction fuel generalizing seen t with
  | zero => cases h
  | succ fuel ih =>
    rw [chainFrom] at h
    split at h
    · cases h
    · split at h
      · rw [List.mem_singleton.mp h]
        exact Or.inl rfl
      · rename_i parent _
        rcases List.mem_cons.mp h with rfl | h
        · exact Or.inl rfl
        · rcases ih h with he | he
          · exact Or.inr ⟨parent, he⟩
          · exact Or.inr he

/-- The methods of the type are methods of the program, as they are for a type looked up in it. -/
def Owns (p : Program) (t : TypeDecl) : Prop :=
  ∀ m ∈ t.methods, m ∈ p.methods

theorem owns_of_mem {t : TypeDecl} (h : t ∈ p.types) : p.Owns t :=
  fun _ hm => mem_methods_of_mem h hm

theorem owns_lookup (p : Program) (name : String) : p.Owns (p.lookup name) :=
  fun _ hm => mem_methods_of_lookup hm

theorem mem_methods_of_declared {t : TypeDecl} {sub : String} {m : Method} (ht : p.Owns t)
    (h : t.declared? sub = some m) : m ∈ p.methods :=
  ht m (List.mem_of_find?_eq_some h)

/-- The implementation of a subsignature on a type of the program is a method of the program. -/
theorem mem_methods_of_implementation {t : TypeDecl} {sub : String} {m : Method}
    (ht : p.Owns t) (h : (p.implementation? t sub).value = some m) : m ∈ p.methods := by
  unfold implementation? at h
  rw [value_firstOn] at h
  obtain ⟨u, hu, hm⟩ := List.exists_of_findSome?_eq_some h
  obtain ⟨v, hv, rfl⟩ := List.mem_map.mp hu
  have howns : p.Owns v.type := by
    rcases mem_chainFrom hv with he | ⟨n, he⟩
    · exact he ▸ ht
    · exact he ▸ p.owns_lookup n
  exact mem_methods_of_declared howns (Option.filter_eq_some_iff.mp hm).1

theorem length_subtypes_le (p : Program) (name : String) :
    (p.subtypes name).length ≤ p.types.length := by
  have h := Search.length_visitsFrom_le p.children (p.types.length + 1) [name] [name]
  unfold subtypes Search.reached Search.visits
  rw [List.length_drop, List.length_map]
  omega

end Program
end ServiceReach

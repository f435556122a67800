import Mathlib.Data.List.Nodup
import ServiceReach.Model.Basic

/-
  Lists of methods without repeated signatures. `insertNew` keeps a list free of them, whatever is
  inserted; inserting several methods adds at most that many, and adds them all, in order, if no
  signature repeats. A list `Lists` a condition if it holds the methods that satisfy it, one for each
  of their signatures; inserting unites conditions.
-/

namespace ServiceReach.Method

/-- No two methods of the list have the same signature. -/
def Distinct (methods : List Method) : Prop :=
  (methods.map Method.signature).Nodup

theorem distinct_nil : Distinct [] := List.nodup_nil

theorem Distinct.nodup {methods : List Method} (h : Distinct methods) : methods.Nodup :=
  List.Nodup.of_map _ h

theorem any_same_iff {methods : List Method} {m : Method} :
    methods.any (·.same m) = true ↔ ∃ n ∈ methods, n.signature = m.signature := by
  simp [Method.same]

theorem any_same_iff_mem_map {methods : List Method} {m : Method} :
    methods.any (·.same m) = true ↔ m.signature ∈ methods.map Method.signature := by
  rw [any_same_iff, List.mem_map]

theorem any_same_of_mem {methods : List Method} {m : Method} (h : m ∈ methods) :
    methods.any (·.same m) = true :=
  any_same_iff.mpr ⟨m, h, rfl⟩

/-! ## One method -/

theorem insertNew_of_any {methods : List Method} {m : Method}
    (h : methods.any (·.same m) = true) : insertNew methods m = methods := by
  unfold insertNew
  rw [if_pos h]

theorem insertNew_of_not_any {methods : List Method} {m : Method}
    (h : ¬ methods.any (·.same m) = true) : insertNew methods m = methods ++ [m] := by
  unfold insertNew
  rw [if_neg h]

theorem mem_of_mem_insertNew {methods : List Method} {m n : Method}
    (h : n ∈ insertNew methods m) : n ∈ methods ∨ n = m := by
  by_cases hany : methods.any (·.same m) = true
  · rw [insertNew_of_any hany] at h
    exact Or.inl h
  · rw [insertNew_of_not_any hany] at h
    simpa using h

theorem length_insertNew_le (methods : List Method) (m : Method) :
    (insertNew methods m).length ≤ methods.length + 1 := by
  unfold insertNew
  split
  · exact Nat.le_succ _
  · exact Nat.le_of_eq List.length_append

theorem distinct_append_singleton {methods : List Method} {m : Method} :
    Distinct (methods ++ [m]) ↔ Distinct methods ∧ ¬ methods.any (·.same m) = true := by
  unfold Distinct
  rw [any_same_iff_mem_map, List.map_append, List.map_singleton, List.nodup_append']
  simp

theorem Distinct.insertNew {methods : List Method} (h : Distinct methods) (m : Method) :
    Distinct (insertNew methods m) := by
  by_cases hany : methods.any (·.same m) = true
  · rwa [insertNew_of_any hany]
  · rw [insertNew_of_not_any hany]
    exact distinct_append_singleton.mpr ⟨h, hany⟩

/-! ## Several methods -/

theorem Distinct.foldl_insertNew {methods : List Method} (h : Distinct methods)
    (others : List Method) : Distinct (others.foldl Method.insertNew methods) := by
  induction others generalizing methods with
  | nil => exact h
  | cons m others ih => exact ih (h.insertNew m)

theorem mem_of_mem_foldl_insertNew {methods others : List Method} {n : Method}
    (h : n ∈ others.foldl insertNew methods) : n ∈ methods ∨ n ∈ others := by
  induction others generalizing methods with
  | nil => exact Or.inl h
  | cons m others ih =>
    rcases ih h with h | h
    · rcases mem_of_mem_insertNew h with h | rfl
      · exact Or.inl h
      · exact Or.inr List.mem_cons_self
    · exact Or.inr (List.mem_cons_of_mem m h)

theorem signature_mem_foldl_insertNew {methods others : List Method} {signature : String} :
    signature ∈ (others.foldl insertNew methods).map Method.signature ↔
      signature ∈ methods.map Method.signature ∨ signature ∈ others.map Method.signature := by
  induction others generalizing methods with
  | nil => simp
  | cons m others ih =>
    have hone : signature ∈ (insertNew methods m).map Method.signature ↔
        signature ∈ methods.map Method.signature ∨ signature = m.signature := by
      by_cases hany : methods.any (·.same m) = true
      · rw [insertNew_of_any hany]
        refine ⟨Or.inl, fun h => h.elim id fun he => ?_⟩
        rw [he]
        exact any_same_iff_mem_map.mp hany
      · rw [insertNew_of_not_any hany]
        simp
    rw [List.foldl_cons, ih, hone, List.map_cons, List.mem_cons, or_assoc]

theorem foldl_insertNew_eq_nil {methods others : List Method}
    (h : others.foldl insertNew methods = []) : methods = [] ∧ others = [] := by
  have hnone : ∀ signature, ¬ (signature ∈ methods.map Method.signature ∨
      signature ∈ others.map Method.signature) := by
    intro signature hs
    have hmem := signature_mem_foldl_insertNew.mpr hs
    rw [h] at hmem
    exact List.not_mem_nil hmem
  constructor
  · exact List.eq_nil_iff_forall_not_mem.mpr fun m hm =>
      hnone m.signature (Or.inl (List.mem_map_of_mem hm))
  · exact List.eq_nil_iff_forall_not_mem.mpr fun m hm =>
      hnone m.signature (Or.inr (List.mem_map_of_mem hm))

theorem length_foldl_insertNew_le (methods others : List Method) :
    (others.foldl insertNew methods).length ≤ methods.length + others.length := by
  induction others generalizing methods with
  | nil => exact Nat.le_refl _
  | cons m others ih =>
    have h1 := ih (insertNew methods m)
    have h2 := length_insertNew_le methods m
    rw [List.foldl_cons, List.length_cons]
    omega

theorem foldl_insertNew_of_distinct {methods others : List Method}
    (h : Distinct (methods ++ others)) : others.foldl insertNew methods = methods ++ others := by
  induction others generalizing methods with
  | nil => rw [List.append_nil, List.foldl_nil]
  | cons m others ih =>
    rw [List.append_cons] at h
    have hm : Distinct (methods ++ [m]) := by
      unfold Distinct at h
      rw [List.map_append] at h
      exact h.of_append_left
    rw [List.foldl_cons, insertNew_of_not_any (distinct_append_singleton.mp hm).2, ih h,
      List.append_assoc, List.singleton_append]

/-! ## Lists of all methods that satisfy a condition -/

/-- The methods satisfy the condition, no two have the same signature, and every method that
    satisfies the condition has the signature of one of them. -/
structure Lists (methods : List Method) (S : Method → Prop) : Prop where
  distinct : Distinct methods
  sound : ∀ m ∈ methods, S m
  complete : ∀ m, S m → ∃ n ∈ methods, n.signature = m.signature

theorem lists_nil {S : Method → Prop} (h : ∀ m, ¬ S m) : Lists [] S :=
  ⟨distinct_nil, fun _ hm => absurd hm List.not_mem_nil, fun m hm => absurd hm (h m)⟩

theorem Lists.congr {methods : List Method} {S T : Method → Prop} (h : Lists methods S)
    (hST : ∀ m, S m ↔ T m) : Lists methods T :=
  ⟨h.distinct, fun m hm => (hST m).mp (h.sound m hm), fun m hm => h.complete m ((hST m).mpr hm)⟩

theorem Lists.union {methods others : List Method} {S T : Method → Prop} (h : Lists methods S)
    (hsound : ∀ m ∈ others, T m) (hcomplete : ∀ m, T m → ∃ n ∈ others, n.signature = m.signature) :
    Lists (others.foldl insertNew methods) fun m => S m ∨ T m := by
  refine ⟨h.distinct.foldl_insertNew others, fun m hm => ?_, fun m hm => ?_⟩
  · exact (mem_of_mem_foldl_insertNew hm).imp (h.sound m) (hsound m)
  · rw [← List.mem_map, signature_mem_foldl_insertNew, List.mem_map, List.mem_map]
    exact hm.imp (h.complete m) (hcomplete m)

theorem Lists.insertNew {methods : List Method} {S : Method → Prop} (h : Lists methods S)
    (m : Method) : Lists (insertNew methods m) fun n => S n ∨ n = m :=
  Lists.union (T := fun n => n = m) h (fun _ hn => List.mem_singleton.mp hn)
    fun n hn => ⟨m, List.mem_singleton_self m, by rw [hn]⟩

end ServiceReach.Method

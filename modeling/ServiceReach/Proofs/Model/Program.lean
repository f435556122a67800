import Mathlib.Data.List.Nodup
import ServiceReach.Model.Program

/-
  Looking things up by name. Where no name repeats, a look-up by name tells the things in a list
  apart and does not depend on their order. In a program a name stands for at most one declared
  type, and a list of types without repeated names is the list of types of its program.
-/

namespace ServiceReach

theorem find?_name_eq_some_iff {α : Type} {l : List α} {name : α → String}
    (h : (l.map name).Nodup) {n : String} {a : α} :
    l.find? (fun b => name b == n) = some a ↔ a ∈ l ∧ name a = n := by
  constructor
  · intro hf
    exact ⟨List.mem_of_find?_eq_some hf, by simpa using List.find?_some hf⟩
  · rintro ⟨hmem, rfl⟩
    cases hf : l.find? fun b => name b == name a with
    | none =>
      have := List.find?_eq_none.mp hf a hmem
      simp at this
    | some b =>
      have hname : name b = name a := by simpa using List.find?_some hf
      rw [List.inj_on_of_nodup_map h (List.mem_of_find?_eq_some hf) hmem hname]

theorem find?_name_of_perm {α : Type} {l l' : List α} {name : α → String}
    (h : (l.map name).Nodup) (hperm : l.Perm l') (n : String) :
    l.find? (fun a => name a == n) = l'.find? fun a => name a == n := by
  have h' : (l'.map name).Nodup := (hperm.map name).nodup_iff.mp h
  ext a
  rw [find?_name_eq_some_iff h, find?_name_eq_some_iff h', hperm.mem_iff]

namespace Program

variable {p q : Program} {name : String} {t : TypeDecl}

theorem ext (h : p.types = q.types) : p = q := by
  cases p
  cases q
  cases h
  rfl

theorem find?_eq_some_iff : p.find? name = some t ↔ t ∈ p.types ∧ t.name = name :=
  find?_name_eq_some_iff p.nodup

theorem find?_of_perm (h : p.types.Perm q.types) (name : String) : p.find? name = q.find? name :=
  find?_name_of_perm p.nodup h name

theorem lookup_name (p : Program) (name : String) : (p.lookup name).name = name := by
  unfold lookup
  cases hf : p.find? name with
  | none => rfl
  | some t => exact (find?_eq_some_iff.mp hf).2

theorem lookup_of_mem (h : t ∈ p.types) : p.lookup t.name = t := by
  unfold lookup
  rw [find?_eq_some_iff.mpr ⟨h, rfl⟩, Option.getD_some]

theorem types_foldl_declare {types : List TypeDecl}
    (h : ((p.types ++ types).map TypeDecl.name).Nodup) :
    (types.foldl declare p).types = p.types ++ types := by
  induction types generalizing p with
  | nil => rw [List.foldl_nil, List.append_nil]
  | cons t types ih =>
    have hnew : t.name ∉ p.types.map TypeDecl.name := by
      rw [List.map_append, List.map_cons] at h
      intro hmem
      exact (List.nodup_append.mp h).2.2 _ hmem _ List.mem_cons_self rfl
    have hdeclare : (p.declare t).types = p.types ++ [t] := by
      unfold declare
      rw [dif_neg hnew]
    rw [List.append_cons, ← hdeclare] at h
    rw [List.foldl_cons, ih h, hdeclare, List.append_assoc, List.singleton_append]

theorem types_ofTypes {types : List TypeDecl} (h : (types.map TypeDecl.name).Nodup) :
    (ofTypes types).types = types :=
  types_foldl_declare h

end Program
end ServiceReach

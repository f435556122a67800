import ServiceReach.Model.Hierarchy
import ServiceReach.Proofs.Model.Program

/-
  The order of the types of a program does not matter for what typing asks of it: what a name stands
  for, the supertypes of a type, the type of a field and the method that a call means. Each answer
  is the same, and so are the names looked up on the way.
-/

namespace ServiceReach.Program

variable {p q : Program}

section

variable (h : p.types.Perm q.types)

include h

theorem get?_of_perm (name : Option String) : p.get? name = q.get? name := by
  have hfind : p.find? = q.find? := funext (find?_of_perm h)
  rw [get?, get?, hfind]

theorem lookup_of_perm (name : String) : p.lookup name = q.lookup name := by
  rw [lookup, lookup, find?_of_perm h]

theorem undeclared_of_perm (names : List String) : p.undeclared names = q.undeclared names :=
  List.filter_congr fun n _ => by rw [find?_of_perm h]

theorem resolve_of_perm (name : Option String) : p.resolve name = q.resolve name := by
  unfold resolve
  cases name.filter isReferenceName with
  | none => rfl
  | some n => simp only [lookup_of_perm h, undeclared_of_perm h]

theorem firstOn_of_perm {β : Type} (answer : TypeDecl → Option β) (visits : List Visit) :
    p.firstOn answer visits = q.firstOn answer visits := by
  induction visits with
  | nil => rfl
  | cons v visits ih => rw [firstOn, firstOn, undeclared_of_perm h, ih]

theorem parentCount_of_perm (t : TypeDecl) : p.parentCount t = q.parentCount t :=
  ((h.cons t).flatMap_right TypeDecl.parents).length_eq

theorem supertypes_of_perm (t : TypeDecl) : p.supertypes t = q.supertypes t := by
  have htype : p.typeOn t = q.typeOn t := by
    funext n
    rw [typeOn, typeOn, lookup_of_perm h]
  rw [supertypes, supertypes, htype, parentCount_of_perm h]

theorem fieldType_of_perm (type : Option String) (field : String) :
    p.fieldType type field = q.fieldType type field := by
  simp only [fieldType, resolve_of_perm h, supertypes_of_perm h, firstOn_of_perm h]

theorem findMethod_of_perm (type : Option String) (name : String) (args : List (Option String)) :
    p.findMethod type name args = q.findMethod type name args := by
  simp only [findMethod, resolve_of_perm h, supertypes_of_perm h, firstOn_of_perm h]

end

end ServiceReach.Program
